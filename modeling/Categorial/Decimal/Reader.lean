import Categorial.Double
import Categorial.Text.Numeral
set_option autoImplicit false

/-!
Reading a decimal as the nearest double. Accepted are an optional sign and then a name of infinity or
of the missing number in any case, or digits with at most one point among or around them and an
optional exponent.
-/

namespace Categorial.Decimal

inductive ReadError where
  | empty
  | invalid
  deriving DecidableEq, Repr

def ReadError.message : ReadError → String
  | .empty => "cannot parse float from empty string"
  | .invalid => "invalid float literal"

/-- A decimal as it is written: `mantissa * 10 ^ exponent`. -/
structure Literal where
  mantissa : Nat
  exponent : Int
  deriving DecidableEq, Repr

def takeDigits (s : List Char) : List Char × List Char := s.span Char.isDigit

def digitsValue (digits : List Char) : Nat :=
  digits.foldl (fun n c => 10 * n + (c.toNat - '0'.toNat)) 0

def exponent? : List Char → Option Int
  | [] => some 0
  | c :: s =>
    if c = 'e' ∨ c = 'E' then
      let (negative, s) := match s with
        | '-' :: r => (true, r)
        | '+' :: r => (false, r)
        | r => (false, r)
      match takeDigits s with
      | ([], _) => none
      | (digits, []) =>
        let n := Int.ofNat (digitsValue digits)
        some (if negative then -n else n)
      | (_, _ :: _) => none
    else none

def literal? (s : List Char) : Option Literal :=
  let (whole, s) := takeDigits s
  let (places, s) := match s with
    | '.' :: r => takeDigits r
    | r => ([], r)
  if whole.isEmpty && places.isEmpty then none
  else (exponent? s).map fun e =>
    ⟨digitsValue (whole ++ places), e - Int.ofNat places.length⟩

/-- Literals far outside the range of doubles are settled by the count of their digits. -/
def Literal.toDouble (l : Literal) : Double :=
  let size := l.exponent + Int.ofNat (Nat.toDigits 10 l.mantissa).length
  if l.mantissa = 0 ∨ size < -400 then Scalar.zero
  else if 400 < size then Scalar.top
  else if 0 ≤ l.exponent then OfScientific.ofScientific l.mantissa false l.exponent.toNat
  else OfScientific.ofScientific l.mantissa true (-l.exponent).toNat

def magnitude? (s : List Char) : Option Double :=
  let name := String.ofList (s.map Char.toLower)
  if name = "inf" ∨ name = "infinity" then some Scalar.top
  else if name = "nan" then some Double.nan
  else (literal? s).map Literal.toDouble

def read (s : List Char) : Except ReadError Double :=
  match s with
  | [] => .error .empty
  | '-' :: r => (magnitude? r).elim (.error .invalid) fun x => .ok x.neg
  | '+' :: r => (magnitude? r).elim (.error .invalid) .ok
  | s => (magnitude? s).elim (.error .invalid) .ok

end Categorial.Decimal
