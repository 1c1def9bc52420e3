import Categorial.Category.Reader
import Categorial.Text.Lines
import Categorial.Treebank.Basic
set_option autoImplicit false

/-!
Reading derivations of a treebank. A node is written in parentheses: a head in angle brackets and, on a
branch, the children. Fields are runs of characters other than blanks and angle brackets; blanks may
stand between any two parts.
-/

namespace Categorial.BankTree

def isFieldChar (c : Char) : Bool := !Text.isBlank c && c != '<' && c != '>'

def readField (s : List Char) : Except Malformed (List Char × List Char) :=
  let s := Text.trimStart s
  match s.takeWhile isFieldChar with
  | [] => .error (.noField (String.ofList s))
  | field => .ok (field, s.dropWhile isFieldChar)

def skipTo (wanted : Char) (s : List Char) : Except Malformed (List Char) :=
  Category.expect wanted (Text.trimStart s)

def readKind (s : List Char) : Except Malformed (List Char × List Char) := do
  let s ← skipTo '(' s
  let s ← skipTo '<' s
  readField s

def readLeaf (s : List Char) : Except Malformed (BankTree × List Char) := do
  let (cat, s) ← readField s
  let (pos, s) ← readField s
  let (_, s) ← readField s
  let (word, s) ← readField s
  let (_, s) ← readField s
  let s ← skipTo '>' s
  let s ← skipTo ')' s
  let c ← Category.read cat
  pure (leaf c ⟨String.ofList word, String.ofList pos, some (String.ofList cat)⟩, s)

/-- What stands before the children of a branch: its category, the place of its head child and how many children are
announced. -/
def readOpening (s : List Char) : Except Malformed ((List Char × Nat × Nat) × List Char) := do
  let (cat, s) ← readField s
  let (head, s) ← readField s
  let (count, s) ← readField s
  let s ← skipTo '>' s
  let headIndex ← (Text.readSize head).mapError (.headIndex (String.ofList head))
  let declared ← (Text.readSize count).mapError (.childCount (String.ofList count))
  pure ((cat, headIndex, declared), s)

/-- Why there is no tree: the text is no derivation, or a branch announces so many children that no room for
them can be set aside. -/
inductive Fault where
  | malformed (cause : Malformed)
  | noRoom
  deriving DecidableEq, Repr

instance : MonadLift (Except Malformed) (Except Fault) where
  monadLift x := x.mapError .malformed

def nodeBytes : Nat := 152

mutual

def readNode : Nat → List Char → Except Fault (BankTree × List Char)
  | 0, s => .error (.malformed (.noChar '(' (String.ofList s)))
  | fuel + 1, s => do
    let (kind, s) ← readKind s
    if kind = ['L'] then readLeaf s
    else if kind = ['T'] then do
      let ((cat, headIndex, declared), s) ← readOpening s
      -- the room is taken before the first child is looked at
      if !hasRoom nodeBytes declared then throw .noRoom
      let (children, s) ← readChildren fuel s
      let s ← skipTo ')' s
      if children.length ≠ declared ∨ declared = 0 then
        throw (.malformed (.childrenDeclared (String.ofList cat) declared children.length))
      let c ← Category.read cat
      pure (node c headIndex children, s)
    else throw (.malformed (.nodeKind (String.ofList kind)))

def readChildren : Nat → List Char → Except Fault (List BankTree × List Char)
  | 0, s => .ok ([], s)
  | fuel + 1, s =>
    match Text.trimStart s with
    | ')' :: _ => .ok ([], s)
    | _ => do
      let (child, s) ← readNode fuel s
      let (children, s) ← readChildren fuel s
      pure (child :: children, s)

end

def read (s : List Char) : Except Fault BankTree := do
  let (t, rest) ← readNode (s.length + 1) s
  if (Text.trimStart rest).isEmpty then pure t
  else throw (.malformed (.afterDerivation (String.ofList rest)))

def isHeader (line : List Char) : Bool := "ID=".toList.isPrefixOf line

def readLine (line : List Char) : Except Error (Option BankTree) :=
  let line := Text.trim line
  if line.isEmpty || isHeader line then .ok none
  else match read line with
    | .ok t => .ok (some t)
    | .error (.malformed _) => .ok none
    | .error .noRoom => .error .noRoom

/-- One derivation per line. Blank lines, header lines and lines that are no derivation are skipped. -/
def readLines : List Text.Line → Except Error (List BankTree)
  | [] => .ok []
  | none :: _ => .error .unreadable
  | some line :: rest => do
    let t ← readLine line
    let trees ← readLines rest
    pure (t.toList ++ trees)

end Categorial.BankTree
