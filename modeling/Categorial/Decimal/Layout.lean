import Categorial.Decimal.Shortest
set_option autoImplicit false

namespace Categorial.Decimal

def minus (negative : Bool) : List Char := if negative then ['-'] else []

def zeros (n : Nat) : List Char := List.replicate n '0'

def Digits.positional (d : Digits) : List Char :=
  let text := Nat.toDigits 10 d.digits
  if 0 ≤ d.exponent then text ++ zeros d.exponent.toNat
  else
    let places := (-d.exponent).toNat
    if text.length ≤ places then '0' :: '.' :: zeros (places - text.length) ++ text
    else text.take (text.length - places) ++ '.' :: text.drop (text.length - places)

/-- One digit before the point; no point if there is only one digit. -/
def Digits.scientific (d : Digits) : List Char :=
  let text := Nat.toDigits 10 d.digits
  let exponent := d.exponent + Int.ofNat text.length - 1
  let head := match text with
    | first :: second :: rest => first :: '.' :: second :: rest
    | one => one
  head ++ 'e' :: (toString exponent).toList

def plain (x : Double) : List Char :=
  match Parts.ofDouble x with
  | .nan => "NaN".toList
  | .infinite negative => minus negative ++ "inf".toList
  | .finite negative 0 _ => minus negative ++ ['0']
  | .finite negative m e => minus negative ++ (shortest m e).positional

def full (x : Double) : List Char :=
  match Parts.ofDouble x with
  | .nan => "NaN".toList
  | .infinite negative => minus negative ++ "inf".toList
  | .finite negative 0 _ => minus negative ++ "0.0".toList
  | .finite negative m e =>
    let d := shortest m e
    let size := d.exponent + Int.ofNat (Nat.toDigits 10 d.digits).length
    minus negative ++
      (if -3 ≤ size ∧ size ≤ 16 then
        d.positional ++ (if 0 ≤ d.exponent then ".0".toList else [])
      else d.scientific)

def fixed (places : Nat) (x : Double) : List Char :=
  match Parts.ofDouble x with
  | .nan => "NaN".toList
  | .infinite negative => minus negative ++ "inf".toList
  | .finite negative m e =>
    let (num, den) := fraction m e
    let text := Nat.toDigits 10 (roundDiv (num * Nat.pow 10 places) den)
    let text := zeros (places + 1 - text.length) ++ text
    minus negative ++ text.take (text.length - places) ++
      (if places = 0 then [] else '.' :: text.drop (text.length - places))

/-- Nine places after the first digit, rounded from the exact value, a half to the even digit; the
negative zero is written as zero. -/
def ninePlaces (x : Double) : List Char :=
  match Parts.ofDouble x with
  | .nan => "nan".toList
  | .infinite negative => minus negative ++ "inf".toList
  | .finite _ 0 _ => "0.000000000e0".toList
  | .finite negative m e =>
    let (num, den) := fraction m e
    let size := magnitude num den
    let (n, d) := scale num den (10 - size)
    let digits := roundDiv n d
    let (digits, size) := if digits = Nat.pow 10 10 then (Nat.pow 10 9, size + 1) else (digits, size)
    minus negative ++ (Digits.mk digits (size - 10)).scientific

end Categorial.Decimal
