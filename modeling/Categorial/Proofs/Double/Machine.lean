import Categorial.Proofs.Double.Rounding
set_option autoImplicit false

namespace Categorial

namespace Double

@[reducible] def scalar (ln : Double → Double) : Scalar Double :=
  { (inferInstance : Scalar Double) with log := ln }

theorem scalar_log : scalar (unary Float.log) = (inferInstance : Scalar Double) := rfl

/-- The doubles of a machine that computes this logarithm. -/
def Machine (_ : Double → Double) : Type := Double

instance (ln : Double → Double) : Scalar (Machine ln) := scalar ln

theorem lt_iff {x y : Double} :
    Scalar.lt x y = true ↔ x.isNaN = false ∧ y.isNaN = false ∧ x.signed < y.signed := by
  have hlt : Scalar.lt x y = (!x.isNaN && !y.isNaN && !Scalar.le y x) := rfl
  rw [hlt]
  simp only [Bool.and_eq_true, Bool.not_eq_true', and_assoc]
  refine and_congr_right fun hx => and_congr_right fun hy => ?_
  rw [← Bool.not_eq_true, le_iff]
  simp [hx, hy]

theorem lt_add_of_le_zero {x y : Double} (hy : Scalar.le y Scalar.zero = true) :
    Scalar.lt x (x + y) = false := by
  obtain ⟨hnumber, _, hneg⟩ := le_iff.mp hy
  have hzero : (Scalar.zero : Double).signed = 0 := rfl
  refine Bool.eq_false_iff.mpr fun hlt => ?_
  obtain ⟨hx, hsum, hlt⟩ := lt_iff.mp hlt
  exact absurd (signed_add_le hx hnumber (hzero ▸ hneg) hsum) (Int.not_le.mpr hlt)

/-- The greatest of some doubles is a number, and no number among them is greater. -/
theorem foldl_max_spec (xs : List Double) : (xs.foldl Scalar.max Scalar.bottom).isNaN = false ∧
    ∀ x ∈ xs, Scalar.lt (xs.foldl Scalar.max Scalar.bottom) x = false := by
  simp only [← Bool.not_eq_true (Scalar.lt _ _), lt_iff]
  induction xs using List.reverseRecOn with
  | nil => exact ⟨rfl, by simp⟩
  | append_singleton xs y ih =>
    rw [List.foldl_append, List.foldl_cons, List.foldl_nil]
    generalize xs.foldl Scalar.max Scalar.bottom = best at ih
    obtain ⟨hbest, hmost⟩ := ih
    have hself : Scalar.le best best = true := le_iff.mpr ⟨hbest, hbest, Int.le_refl _⟩
    rw [Scalar.max, hself]
    simp only [Bool.not_true, Bool.or_false, List.mem_append, List.mem_singleton]
    split
    · rename_i hle
      obtain ⟨_, hy, hle⟩ := le_iff.mp hle
      refine ⟨hy, ?_⟩
      rintro x (hx | rfl) ⟨_, hnumber, hlt⟩
      · exact hmost x hx ⟨hbest, hnumber, hle.trans_lt hlt⟩
      · exact absurd hlt (Int.lt_irrefl _)
    · rename_i hle
      refine ⟨hbest, ?_⟩
      rintro x (hx | rfl) hlt
      · exact hmost x hx hlt
      · exact hle (le_iff.mpr ⟨hbest, hlt.2.1, hlt.2.2.le⟩)

end Double

end Categorial
