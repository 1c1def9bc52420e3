import Categorial.Decimal.Reader
import Categorial.Text.Numeral
set_option autoImplicit false

/-!
Options of a command and the reading of its arguments. Arguments are read from the left, and the first
fault or request for help decides. An option's value stands behind it or behind an equals sign; after a
blank it may not look like an option itself. There are no positional arguments.
-/

namespace Categorial.CommandLine

/-- What the value of an option has to be. -/
inductive ValueKind where
  | text
  | path
  | id
  | size
  | number
  | choice (names : List String)
  deriving DecidableEq, Repr

inductive Presence where
  | needed
  | optional
  /-- This value stands in for a missing one. -/
  | default (value : String)
  | repeated
  deriving DecidableEq, Repr

structure OptionSpec where
  name : String
  short : Option Char
  /-- A switch has no value. -/
  value : Option ValueKind
  presence : Presence
  help : String
  deriving DecidableEq, Repr

/-- Values by the names of their options, the last given first. -/
structure Arguments where
  given : List (String × String)
  deriving DecidableEq, Repr

/-- Why the arguments of a command are not used. -/
inductive Halt where
  | help
  | usage
  deriving DecidableEq, Repr

def ValueKind.admits (kind : ValueKind) (value : String) : Bool :=
  match kind with
  | .text => true
  | .path => !value.isEmpty
  | .id =>
    match Text.readInt (Nat.pow 2 63 - 1) value.toList with
    | .ok n => decide (0 ≤ n ∧ n ≤ Int.ofNat Text.idBound)
    | .error _ => false
  | .size => (Text.readSize value.toList).isOk
  | .number => (Decimal.read value.toList).isOk
  | .choice names => names.contains value

inductive Shape where
  /-- Two hyphens and a name, possibly with a value. -/
  | long (name : String) (attached : Option String)
  | short (letter : Char) (attached : Option String)
  | separator
  | plain
  deriving DecidableEq, Repr

namespace Shape

/-- A value behind a short option may begin with an equals sign, which does not belong to it. -/
def attachedTo : List Char → Option String
  | [] => none
  | '=' :: value => some (String.ofList value)
  | value => some (String.ofList value)

def ofChars : List Char → Shape
  | ['-', '-'] => separator
  | '-' :: '-' :: s =>
    long (String.ofList (s.takeWhile (· != '='))) (match s.dropWhile (· != '=') with
      | [] => none
      | _ :: value => some (String.ofList value))
  | '-' :: letter :: s => short letter (attachedTo s)
  | _ => plain

def of (arg : String) : Shape := ofChars arg.toList

end Shape

namespace Arguments

def empty : Arguments := ⟨[]⟩

def has (a : Arguments) (name : String) : Bool := a.given.any fun (n, _) => n == name

def all (a : Arguments) (name : String) : List String :=
  (a.given.filterMap fun (n, v) => if n = name then some v else none).reverse

def get? (a : Arguments) (name : String) : Option String := a.given.lookup name

def take (a : Arguments) (spec : OptionSpec) (value : String) : Except Halt Arguments :=
  if a.has spec.name ∧ spec.presence ≠ .repeated then .error .usage
  else if spec.value.all fun kind => kind.admits value then .ok ⟨(spec.name, value) :: a.given⟩
  else .error .usage

def isNeeded (spec : OptionSpec) : Bool := spec.presence == .needed

def complete (specs : List OptionSpec) (a : Arguments) : Except Halt Arguments :=
  if specs.any fun s => isNeeded s && !a.has s.name then .error .usage
  else
    .ok ⟨a.given ++ specs.filterMap fun s =>
      match s.presence with
      | .default value => some (s.name, value)
      | _ => none⟩

def identify (specs : List OptionSpec) : Shape → Except Halt (OptionSpec × Option String)
  | .long "help" none => .error .help
  | .short 'h' _ => .error .help
  | .long name attached =>
    ((specs.find? fun s => s.name == name).map fun s => (s, attached)).elim (.error .usage) .ok
  | .short letter attached =>
    ((specs.find? fun s => s.short == some letter).map fun s => (s, attached)).elim
      (.error .usage) .ok
  | _ => .error .usage

def readFrom (specs : List OptionSpec) (a : Arguments) : List String → Except Halt Arguments
  | [] => .ok a
  | arg :: rest =>
    if Shape.of arg = .separator ∧ rest.isEmpty then .ok a
    else
      match identify specs (Shape.of arg) with
      | .error h => .error h
      | .ok (spec, attached) =>
        match spec.value, attached with
        | none, some _ => .error .usage
        | none, none => (a.take spec "").bind fun a => readFrom specs a rest
        | some _, some value => (a.take spec value).bind fun a => readFrom specs a rest
        | some _, none =>
          match rest with
          | value :: rest =>
            if Shape.of value = .plain then
              (a.take spec value).bind fun a => readFrom specs a rest
            else .error .usage
          | [] => .error .usage

def read (specs : List OptionSpec) (args : List String) : Except Halt Arguments :=
  (readFrom specs .empty args).bind (complete specs)

/-! Values of options that have been checked. -/

def text (a : Arguments) (name : String) : String := (a.get? name).getD ""

def nat (a : Arguments) (name : String) : Nat :=
  ((Text.readSize (a.text name).toList).toOption).getD 0

def number? (a : Arguments) (name : String) : Option Double :=
  (a.get? name).bind fun v => (Decimal.read v.toList).toOption

end Arguments

end Categorial.CommandLine
