import Categorial.CommandLine.Commands
set_option autoImplicit false

/-!
A run of the program: its arguments name a command and the command's options. The exit code is 0 for
success and for help, 1 for a command that fails, 2 for arguments that cannot be used, and 101 for a command that
breaks off.
-/

namespace Categorial.CommandLine

variable {m : Type → Type} [Monad m] [Files m] (k : Compressor)

def perform (c : Command) (a : Arguments) : Running m Unit :=
  match c with
  | .buildGrammar => buildGrammar a
  | .parse => parse a
  | .train => train k a

def usageFault (text : String) : m Nat := do
  Files.note text
  pure 2

def printPage (text : String) : m Nat := do
  Files.print text
  pure 0

def runCommand (c : Command) (args : List String) : m Nat := do
  match Arguments.read c.options args with
  | .error .help => printPage (Manual.page c)
  | .error .usage => usageFault (Manual.page c)
  | .ok a =>
    match ← (perform k c a : Running m Unit).run with
    | .ok () => pure 0
    | .error (.failed .noRoom) => do
      Files.note Error.noRoom.message
      pure 101
    | .error e => do
      Files.note ("Error: " ++ e.message)
      pure 1

/-- Pages by the name of a command, among them the one of this command itself. -/
def help (args : List String) : m Nat :=
  match args with
  | [] => printPage Manual.overview
  | [name] =>
    if name = Manual.helpName then printPage Manual.helpPage
    else
      match Command.ofName? name with
      | some c => printPage (Manual.page c)
      | none => usageFault Manual.overview
  | _ => usageFault Manual.overview

def run (args : List String) : m Nat :=
  match args with
  | [] => usageFault Manual.overview
  | name :: rest =>
    if name = Manual.helpName then help rest
    else
      match Command.ofName? name with
      | some c => runCommand k c rest
      | none =>
        match Shape.of name with
        | .long "help" none => printPage Manual.overview
        | .short 'h' _ => printPage Manual.overview
        | .long "version" none => printPage Manual.version
        | .short 'V' _ => printPage Manual.version
        | _ => usageFault Manual.overview

end Categorial.CommandLine
