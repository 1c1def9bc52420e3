import Categorial.Double
set_option autoImplicit false

namespace Categorial.Decimal

def roundDiv (num den : Nat) : Nat :=
  let q := num / den
  let r := num % den
  if 2 * r < den then q
  else if den < 2 * r then q + 1
  else if q % 2 = 0 then q else q + 1

/-- What the 64 bits of a double stand for. A finite one is `mantissa * 2 ^ exponent`. -/
inductive Parts where
  | nan
  | infinite (negative : Bool)
  | finite (negative : Bool) (mantissa : Nat) (exponent : Int)
  deriving DecidableEq, Repr

def Parts.ofBits (bits : Nat) : Parts :=
  let negative := Nat.pow 2 63 ≤ bits
  let exponent := bits / Nat.pow 2 52 % Nat.pow 2 11
  let fraction := bits % Nat.pow 2 52
  if exponent = Nat.pow 2 11 - 1 then
    if fraction = 0 then .infinite negative else .nan
  else if exponent = 0 then .finite negative fraction (-1074)
  else .finite negative (Nat.pow 2 52 + fraction) (Int.ofNat exponent - 1075)

def Parts.ofDouble (x : Double) : Parts := .ofBits x.bits.toNat

def fraction (mantissa : Nat) (exponent : Int) : Nat × Nat :=
  if 0 ≤ exponent then (mantissa * Nat.pow 2 exponent.toNat, 1)
  else (mantissa, Nat.pow 2 (-exponent).toNat)

def scale (num den : Nat) (shift : Int) : Nat × Nat :=
  if 0 ≤ shift then (num * Nat.pow 10 shift.toNat, den)
  else (num, den * Nat.pow 10 (-shift).toNat)

/-- How many decimal digits stand before the point of `num / den`: the least `e` with
`num / den < 10 ^ e`. For a value below one tenth it is negative. The search starts at an estimate that
is never too large and takes at most `fuel` steps up. -/
def magnitudeFrom (num den : Nat) : Nat → Int → Int
  | 0, e => e
  | fuel + 1, e =>
    let (n, d) := scale num den (-e)
    if n < d then e else magnitudeFrom num den fuel (e + 1)

def magnitude (num den : Nat) : Int :=
  let bits := Int.ofNat num.log2 - Int.ofNat den.log2 - 1
  magnitudeFrom num den 4 ((bits * 30103).fdiv 100000)

end Categorial.Decimal
