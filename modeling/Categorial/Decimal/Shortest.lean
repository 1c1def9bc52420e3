import Categorial.Decimal.Rounding
set_option autoImplicit false

namespace Categorial.Decimal

/-- The interval of a double, its three points over one denominator. The ends belong to it exactly if
the mantissa is even. -/
structure Interval where
  low : Nat
  value : Nat
  high : Nat
  den : Nat
  closed : Bool

def Interval.ofFinite (mantissa : Nat) (exponent : Int) : Interval :=
  let (unit, den) := fraction 1 (exponent - 2)
  let below := if mantissa = Nat.pow 2 52 ∧ exponent ≠ -1074 then 1 else 2
  ⟨unit * (4 * mantissa - below), unit * (4 * mantissa), unit * (4 * mantissa + 2), den,
    mantissa % 2 = 0⟩

def Interval.contains (i : Interval) (num den : Nat) : Bool :=
  if i.closed then i.low * den ≤ num * i.den && num * i.den ≤ i.high * den
  else i.low * den < num * i.den && num * i.den < i.high * den

structure Digits where
  digits : Nat
  exponent : Int
  deriving DecidableEq, Repr

/-- The decimal in the interval among the two neighbours of the value on the grid of the multiples of
`10 ^ exponent`: the nearer one if both lie in it, the upper one on a tie. -/
def Interval.onGrid? (i : Interval) (exponent : Int) : Option Digits :=
  let (num, den) := scale i.value i.den (-exponent)
  let down := num / den
  let within (d : Nat) : Bool :=
    let (n, m) := scale d 1 exponent
    i.contains n m
  let hitDown := within down
  let hitUp := within (down + 1)
  if hitDown && (!hitUp || 2 * (num % den) < den) then some ⟨down, exponent⟩
  else if hitUp then some ⟨down + 1, exponent⟩
  else none

def Interval.search (i : Interval) (magnitude : Int) : Nat → Nat → Digits
  | 0, count => ⟨0, magnitude - count⟩
  | fuel + 1, count =>
    match i.onGrid? (magnitude - count) with
    | some d => d
    | none => i.search magnitude fuel (count + 1)

def Digits.stripped : Nat → Digits → Digits
  | 0, d => d
  | fuel + 1, d =>
    if d.digits ≠ 0 ∧ d.digits % 10 = 0 then stripped fuel ⟨d.digits / 10, d.exponent + 1⟩ else d

def shortest (mantissa : Nat) (exponent : Int) : Digits :=
  let i := Interval.ofFinite mantissa exponent
  (i.search (magnitude i.value i.den) 17 1).stripped 17

end Categorial.Decimal
