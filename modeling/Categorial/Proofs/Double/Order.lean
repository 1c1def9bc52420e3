import Categorial.Double
import Categorial.Proofs.Fine.Kept
set_option autoImplicit false

namespace Categorial

namespace Double

def plusZero : Double := ⟨0⟩

def minusZero : Double := ⟨0x8000000000000000⟩

theorem magnitude_toNat (x : Double) : x.magnitude.toNat = x.bits.toNat % 2 ^ 63 := by
  have hmask : (0x7FFFFFFFFFFFFFFF : UInt64).toNat = 2 ^ 63 - 1 := rfl
  rw [magnitude, UInt64.toNat_and, hmask, Nat.and_two_pow_sub_one_eq_mod]

theorem isNegative_iff {x : Double} : x.isNegative = true ↔ 2 ^ 63 ≤ x.bits.toNat := by
  have hsign : (0x8000000000000000 : UInt64).toNat = 2 ^ 63 := rfl
  rw [isNegative, decide_eq_true_eq, UInt64.le_iff_toNat_le, hsign]

theorem isNaN_iff {x : Double} : x.isNaN = true ↔ 0x7FF0000000000000 < x.bits.toNat % 2 ^ 63 := by
  have hinf : (0x7FF0000000000000 : UInt64).toNat = 0x7FF0000000000000 := rfl
  rw [isNaN, decide_eq_true_eq, UInt64.lt_iff_toNat_lt, hinf, magnitude_toNat]

theorem ext_toNat {x y : Double} (h : x.bits.toNat = y.bits.toNat) : x = y := by
  cases x
  cases y
  exact congrArg mk (UInt64.toNat_inj.mp h)

/-- The pattern with its sign. Numbers are in order as these are. -/
def signed (x : Double) : Int :=
  if x.bits.toNat < 2 ^ 63 then x.bits.toNat else 2 ^ 63 - x.bits.toNat

theorem le_iff {x y : Double} :
    Scalar.le x y = true ↔ x.isNaN = false ∧ y.isNaN = false ∧ x.signed ≤ y.signed := by
  have hx := x.bits.toNat_lt
  have hy := y.bits.toNat_lt
  have hle : Scalar.le x y = le x y := rfl
  have hzero : (0 : UInt64).toNat = 0 := rfl
  rw [hle, le, signed, signed]
  simp only [Bool.and_eq_true, Bool.not_eq_true', and_assoc]
  refine and_congr_right fun _ => and_congr_right fun _ => ?_
  cases hnx : x.isNegative <;> cases hny : y.isNegative <;>
    simp only [← Bool.not_eq_true, isNegative_iff, not_le] at hnx hny <;>
    simp [UInt64.le_iff_toNat_le, ← UInt64.toNat_inj, magnitude_toNat] <;> omega

theorem orderKey_eq (x : Double) :
    x.orderKey = if x.bits.toNat < 2 ^ 63 then x.signed else x.signed - 1 := by
  have hpow : Nat.pow 2 63 = 9223372036854775808 := rfl
  rw [orderKey, signed]
  simp only [hpow, Int.ofNat_eq_natCast]
  split <;> omega

/-- As numbers the doubles that are some are in a total order. -/
theorem totalOn : Scalar.TotalOn fun x : Double => x.isNaN = false where
  trans x y z hxy hyz := by
    obtain ⟨hx, _, hxy⟩ := le_iff.mp hxy
    obtain ⟨_, hz, hyz⟩ := le_iff.mp hyz
    exact le_iff.mpr ⟨hx, hz, hxy.trans hyz⟩
  total x y hx hy := by
    simp only [le_iff, hx, hy, true_and]
    exact le_total _ _
  lt_iff x y hx hy := by
    have hlt : Scalar.lt x y = (!x.isNaN && !y.isNaN && !Scalar.le y x) := rfl
    rw [hlt, hx, hy]
    simp

instance : Std.TransCmp (Scalar.compare : Double → Double → Ordering) where
  eq_swap {x y} := (Std.OrientedOrd.eq_swap : compare x.orderKey y.orderKey = _)
  isLE_trans {x _ z} hxy hyz :=
    (Std.TransOrd.isLE_trans hxy hyz : (compare x.orderKey z.orderKey).isLE = true)

theorem compare_eq_lt {x y : Double} : Scalar.compare x y = .lt ↔ x.orderKey < y.orderKey :=
  compare_lt_iff_lt

theorem compare_eq_eq {x y : Double} : Scalar.compare x y = .eq ↔ x = y := by
  have hcompare : Scalar.compare x y = compare x.orderKey y.orderKey := rfl
  rw [hcompare, compare_eq_iff_eq]
  exact ⟨orderKey_inj, congrArg orderKey⟩

/-- On numbers the orders differ on the zeros only. -/
theorem orderKey_le_of_le {x y : Double} (h : Scalar.le x y = true) :
    x.orderKey ≤ y.orderKey ∨ x = plusZero ∧ y = minusZero := by
  obtain ⟨_, _, hle⟩ := le_iff.mp h
  have hplus : plusZero.bits.toNat = 0 := rfl
  have hminus : minusZero.bits.toNat = 2 ^ 63 := rfl
  have hy := y.bits.toNat_lt
  by_cases hzeros : x.bits.toNat = 0 ∧ y.bits.toNat = 2 ^ 63
  · exact .inr ⟨ext_toNat (hzeros.1.trans hplus.symm), ext_toNat (hzeros.2.trans hminus.symm)⟩
  · refine .inl ?_
    rw [orderKey_eq, orderKey_eq]
    simp only [signed] at hle ⊢
    split at hle <;> split at hle <;> omega

theorem le_of_compare {x y : Double} (hx : x.isNaN = false) (hy : y.isNaN = false)
    (h : Scalar.compare x y ≠ .gt) : Scalar.le x y = true := by
  have hcompare : Scalar.compare x y = compare x.orderKey y.orderKey := rfl
  rw [hcompare, ne_eq, compare_gt_iff_gt, not_lt, orderKey_eq, orderKey_eq] at h
  refine le_iff.mpr ⟨hx, hy, ?_⟩
  simp only [signed] at h ⊢
  split at h <;> split at h <;> omega

theorem orderKey_minusZero_lt : minusZero.orderKey < plusZero.orderKey := by
  decide

theorem isBottom_iff {x : Double} : Scalar.isBottom x = true ↔ x = Scalar.bottom := by
  have hbottom : (Scalar.bottom : Double).bits.toNat = 0xFFF0000000000000 := rfl
  constructor
  · intro h
    obtain ⟨hx, _, hle⟩ := le_iff.mp h
    have hlt := x.bits.toNat_lt
    rw [← Bool.not_eq_true, isNaN_iff] at hx
    rw [signed, signed, hbottom] at hle
    refine ext_toNat ?_
    rw [hbottom]
    split at hle <;> simp at hle <;> omega
  · rintro rfl
    rfl

end Double

end Categorial
