set_option autoImplicit false

/-!
Decimal numerals for bounded integers. A plus sign may stand in front, a minus sign only before a
signed number; digits are read from the left, so the first character that is no digit, or the first
digit that leaves the range, decides which error it is.
-/

namespace Categorial.Text

inductive NumeralError where
  | empty
  | invalidDigit
  | tooLarge
  | tooSmall
  deriving DecidableEq, Repr

def NumeralError.message : NumeralError → String
  | .empty => "cannot parse integer from empty string"
  | .invalidDigit => "invalid digit found in string"
  | .tooLarge => "number too large to fit in target type"
  | .tooSmall => "number too small to fit in target type"

def digit? (c : Char) : Option Nat :=
  if c.isDigit then some (c.toNat - '0'.toNat) else none

/-- Reads digits on top of `n`; a value over `bound` is the error `fault`. -/
def readDigits (bound : Nat) (fault : NumeralError) (n : Nat) : List Char → Except NumeralError Nat
  | [] => .ok n
  | c :: s =>
    match digit? c with
    | none => .error .invalidDigit
    | some d =>
      if bound < 10 * n + d then .error fault else readDigits bound fault (10 * n + d) s

def isSign (c : Char) : Bool := c == '+' || c == '-'

def readNat (bound : Nat) : List Char → Except NumeralError Nat
  | [] => .error .empty
  | ['+'] => .error .invalidDigit
  | '+' :: s => readDigits bound .tooLarge 0 s
  | s => readDigits bound .tooLarge 0 s

/-- An integer between `-(bound + 1)` and `bound`. -/
def readInt (bound : Nat) : List Char → Except NumeralError Int
  | [] => .error .empty
  | ['+'] => .error .invalidDigit
  | ['-'] => .error .invalidDigit
  | '+' :: s => (readDigits bound .tooLarge 0 s).map Int.ofNat
  | '-' :: s => (readDigits (bound + 1) .tooSmall 0 s).map fun n => -(Int.ofNat n)
  | s => (readDigits bound .tooLarge 0 s).map Int.ofNat

def idBound : Nat := Nat.pow 2 32 - 1

def sizeBound : Nat := Nat.pow 2 64 - 1

def readId (s : List Char) : Except NumeralError Nat := readNat idBound s

def readSize (s : List Char) : Except NumeralError Nat := readNat sizeBound s

def natDigits (n : Nat) : List Char := Nat.toDigits 10 n

end Categorial.Text
