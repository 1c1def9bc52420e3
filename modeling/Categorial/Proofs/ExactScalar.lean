import Categorial.Scalar
import Mathlib.Analysis.SpecialFunctions.Log.ENNRealLog
import Mathlib.Data.EReal.Operations
import Mathlib.Data.EReal.Inv
set_option autoImplicit false

namespace Categorial

open Classical in
noncomputable instance : Scalar EReal where
  ofNat n := n
  emptySum := 0
  bottom := ⊥
  top := ⊤
  lt x y := decide (x < y)
  le x y := decide (x ≤ y)
  compare := Ord.compare
  log x := ENNReal.log x.toENNReal

namespace ExactScalar

-- tried before the sum that comes with `Scalar`, which is the same but not the one that lemmas speak of
noncomputable instance (priority := high) instAdd : Add EReal := AddCommMagma.toAdd

@[simp] theorem bottom_eq : (Scalar.bottom : EReal) = ⊥ := rfl

@[simp] theorem zero_eq : (Scalar.zero : EReal) = 0 := by
  simp [Scalar.zero, Scalar.ofNat]

@[simp] theorem one_eq : (Scalar.one : EReal) = 1 := by
  simp [Scalar.one, Scalar.ofNat]

@[simp] theorem le_iff {x y : EReal} : Scalar.le x y = true ↔ x ≤ y := by
  simp [Scalar.le]

@[simp] theorem lt_iff {x y : EReal} : Scalar.lt x y = true ↔ x < y := by
  simp [Scalar.lt]

@[simp] theorem isBottom_iff {x : EReal} : Scalar.isBottom x = true ↔ x = ⊥ := by
  simp [Scalar.isBottom]

theorem max_eq (x y : EReal) : Scalar.max x y = max x y := by
  by_cases h : x ≤ y <;> simp [Scalar.max, h, max_def]

/-- Two events together: the sum absorbs minus infinity by itself. -/
@[simp] theorem both_eq (x y : EReal) : Scalar.both x y = x + y := by
  by_cases hx : x = ⊥
  · simp [Scalar.both, hx]
  · by_cases hy : y = ⊥
    · simp [Scalar.both, hy]
    · simp [Scalar.both, hx, hy]

@[simp] theorem sum_eq (xs : List EReal) : Scalar.sum xs = xs.sum := List.sum_eq_foldl.symm

/-- Real numbers as scores. -/
noncomputable def ofReal : ℝ →+ EReal := ⟨⟨(↑), EReal.coe_zero⟩, EReal.coe_add⟩

theorem coe_list_sum (xs : List ℝ) : ((xs.sum : ℝ) : EReal) = (xs.map Real.toEReal).sum := map_list_sum ofReal xs

theorem sum_ne_bot {xs : List EReal} (h : ∀ x ∈ xs, x ≠ ⊥) : xs.sum ≠ ⊥ := by
  induction xs with
  | nil => simp
  | cons x xs ih =>
    obtain ⟨hx, hxs⟩ := List.forall_mem_cons.mp h
    rw [List.sum_cons, ne_eq, EReal.add_eq_bot_iff, not_or]
    exact ⟨hx, ih hxs⟩

@[simp] theorem compare_eq (x y : EReal) : Scalar.compare x y = Ord.compare x y := rfl

/-- Neither minus nor plus infinity. -/
def Finite (x : EReal) : Prop := ∃ q : ℝ, x = q

theorem Finite.both {x y : EReal} (hx : Finite x) (hy : Finite y) : Finite (Scalar.both x y) := by
  obtain ⟨q, rfl⟩ := hx
  obtain ⟨r, rfl⟩ := hy
  exact ⟨q + r, by rw [both_eq, EReal.coe_add]⟩

theorem Finite.isBottom {x : EReal} (hx : Finite x) : Scalar.isBottom x = false := by
  obtain ⟨q, rfl⟩ := hx
  rw [← Bool.not_eq_true, isBottom_iff]
  exact EReal.coe_ne_bot q

theorem finite_zero : Finite Scalar.zero := ⟨0, by simp⟩

instance : Std.TransCmp (Scalar.compare : EReal → EReal → Ordering) :=
  inferInstanceAs (Std.TransOrd EReal)

end ExactScalar

end Categorial
