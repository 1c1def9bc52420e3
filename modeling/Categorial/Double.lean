import Categorial.Scalar
set_option autoImplicit false

/-!
The numbers that the program runs on: doubles, each given by its 64 bits. Numbers are computed by the
machine. What is no number keeps its sign through every operation, because the total order puts it
below every number or above them by that sign.
-/

namespace Categorial

structure Double where
  bits : UInt64
  deriving DecidableEq, Repr

namespace Double

def ofFloat (x : Float) : Double := ⟨x.toBits⟩

def toFloat (x : Double) : Float := Float.ofBits x.bits

def nan : Double := ⟨0x7FF8000000000000⟩

def magnitude (x : Double) : UInt64 := x.bits &&& 0x7FFFFFFFFFFFFFFF

def isNegative (x : Double) : Bool := 0x8000000000000000 ≤ x.bits

/-- Without the sign, a pattern that is no number lies above that of infinity. -/
def isNaN (x : Double) : Bool := 0x7FF0000000000000 < x.magnitude

/-- Comparison as numbers: the two zeros are equal, and what is no number is not comparable. -/
def le (x y : Double) : Bool :=
  !x.isNaN && !y.isNaN &&
    if x.isNegative then !y.isNegative || y.magnitude ≤ x.magnitude
    else if y.isNegative then x.magnitude == 0 && y.magnitude == 0
    else x.magnitude ≤ y.magnitude

def lt (x y : Double) : Bool := !x.isNaN && !y.isNaN && !le y x

def neg (x : Double) : Double := ⟨x.bits ^^^ 0x8000000000000000⟩

/-- An operation that has no result on numbers gives a NaN with the minus sign. -/
def ofResult (x : Float) : Double := if x.isNaN then neg nan else ofFloat x

@[inline] def unary (f : Float → Float) (x : Double) : Double :=
  if x.isNaN then x else ofResult (f x.toFloat)

@[inline] def binary (f : Float → Float → Float) (x y : Double) : Double :=
  if x.isNaN then x else if y.isNaN then y else ofResult (f x.toFloat y.toFloat)

def orderKey (x : Double) : Int :=
  let n := x.bits.toNat
  if n < Nat.pow 2 63 then Int.ofNat n else Int.ofNat (Nat.pow 2 63 - 1) - Int.ofNat n

theorem orderKey_inj {x y : Double} (h : orderKey x = orderKey y) : x = y := by
  cases x with | mk a =>
  cases y with | mk b =>
  have hpow : Nat.pow 2 63 = 9223372036854775808 := rfl
  simp only [orderKey, hpow] at h
  have hab : a.toNat = b.toNat := by
    split at h <;> split at h <;> simp only [Int.ofNat_eq_natCast] at h <;> omega
  exact congrArg Double.mk (UInt64.toNat_inj.mp hab)

instance : OfScientific Double := ⟨fun m negative e => ofFloat (Float.ofScientific m negative e)⟩

instance : Scalar Double where
  add := binary (· + ·)
  sub := binary (· - ·)
  mul := binary (· * ·)
  div := binary (· / ·)
  ofNat n := ofFloat (Float.ofNat n)
  emptySum := ⟨0x8000000000000000⟩
  bottom := ⟨0xFFF0000000000000⟩
  top := ⟨0x7FF0000000000000⟩
  lt := lt
  le := le
  compare x y := Ord.compare (orderKey x) (orderKey y)
  log := unary Float.log

end Double

end Categorial
