import Categorial.Model.Backoff
import Categorial.Proofs.ExactScalar
import Mathlib.Tactic.Positivity
set_option autoImplicit false

namespace Categorial

namespace ExactScalar

def Positive (x : EReal) : Prop := ∃ q : ℝ, 0 < q ∧ x = q

theorem Positive.finite_ofProbability {x : EReal} (hx : Positive x) : Finite (Scalar.ofProbability x) := by
  obtain ⟨q, hq, rfl⟩ := hx
  have hle : ¬ (q : EReal) ≤ 0 := by
    rw [not_le]
    exact EReal.coe_pos.mpr hq
  refine ⟨Real.log q, ?_⟩
  have hlog : Scalar.ofProbability (q : EReal) = ENNReal.log (q : EReal).toENNReal := by
    rw [Scalar.ofProbability, if_neg]
    · rfl
    · rwa [le_iff, zero_eq]
  rw [hlog, EReal.toENNReal_of_ne_top (EReal.coe_ne_top q), EReal.toReal_coe,
    ENNReal.log_ofReal_of_pos hq]

end ExactScalar

open ExactScalar

/-- Some outcome was seen. -/
structure Outcomes.Seen (o : Outcomes) : Prop where
  total_pos : 0 < o.total
  types_pos : 0 < o.types

theorem Outcomes.seen_add (o : Outcomes) (outcome : Nat) : (o.add outcome).Seen where
  total_pos := Nat.succ_pos _
  types_pos := by
    have hsome : (o.counts.insert outcome (o.count outcome + 1)).isEmpty = false := by simp
    rw [Std.HashMap.isEmpty_eq_size_eq_zero, beq_eq_false_iff_ne] at hsome
    exact Nat.pos_of_ne_zero hsome

namespace Distribution

/-- A context is there only if something was seen in it. -/
def Counted (d : Distribution) : Prop := ∀ (key : List Nat) (o : Outcomes), d.contexts[key]? = some o → o.Seen

theorem counted_empty (width : Nat) : (empty width).Counted := by
  intro key o h
  simp [empty] at h

theorem Counted.observe {d : Distribution} (h : d.Counted) (context : List Nat) (outcome : Nat) :
    (d.observe context outcome).Counted := by
  intro key o ho
  simp only [Distribution.observe, Std.HashMap.getElem?_insert] at ho
  split at ho
  · cases ho
    exact Outcomes.seen_add _ outcome
  · exact h key o ho

theorem interpolate_coe {d : Distribution} {context : List Nat} {o : Outcomes} (outcome : Nat) (q : ℝ)
    (h : d.contexts[d.key context]? = some o) : d.interpolate context outcome (q : EReal) =
      ((o.total / (o.total + o.types) * (o.count outcome / o.total) +
        ((1 : ℕ) - o.total / (o.total + o.types)) * q : ℝ) : EReal) := by
  unfold interpolate
  rw [h]
  rfl

theorem positive_interpolate {d : Distribution} (hd : d.Counted) (context : List Nat) (outcome : Nat)
    {lower : EReal} (hlower : Positive lower) : Positive (d.interpolate context outcome lower) := by
  obtain ⟨q, hq, rfl⟩ := hlower
  cases h : d.contexts[d.key context]? with
  | none => exact ⟨q, hq, by simp [interpolate, h]⟩
  | some o =>
    refine ⟨_, ?_, interpolate_coe outcome q h⟩
    obtain ⟨htotal, htypes⟩ := hd _ o h
    have htotal : (0 : ℝ) < o.total := Nat.cast_pos.mpr htotal
    have htypes : (0 : ℝ) < o.types := Nat.cast_pos.mpr htypes
    -- something is left for the level below
    have hrest : (0 : ℝ) < (1 : ℕ) - o.total / (o.total + o.types) := by
      rw [Nat.cast_one, sub_pos, div_lt_one (by positivity)]
      linarith
    have hlow := mul_pos hrest hq
    positivity

end Distribution

namespace Backoff

/-- At every level a context is there only if something was seen in it. -/
def Counted : Backoff → Prop
  | .base d => d.Counted
  | .specific d rest => d.Counted ∧ rest.Counted

theorem counted_chainFrom (base : Nat) : ∀ more, (chainFrom base more).Counted
  | 0 => Distribution.counted_empty base
  | more + 1 => ⟨Distribution.counted_empty _, counted_chainFrom base more⟩

theorem counted_chain (full base : Nat) : (chain full base).Counted := counted_chainFrom base _

theorem Counted.observe {b : Backoff} (h : b.Counted) (context : List Nat) (outcome : Nat) :
    (b.observe context outcome).Counted := by
  induction b with
  | base d => exact Distribution.Counted.observe h context outcome
  | specific d rest ih => exact ⟨h.1.observe context outcome, ih h.2⟩

theorem positive_probability {b : Backoff} (h : b.Counted) (context : List Nat) (outcome : Nat) :
    Positive (b.probability context outcome) := by
  induction b with
  | base d =>
    refine Distribution.positive_interpolate h context outcome ⟨(1 : ℕ) / (d.vocabulary.size + (1 : ℕ)), ?_, rfl⟩
    positivity
  | specific d rest ih => exact Distribution.positive_interpolate h.1 context outcome (ih h.2)

theorem finite_logProbability {b : Backoff} (h : b.Counted) (context : List Nat) (outcome : Nat) :
    Finite (b.logProbability context outcome) :=
  (positive_probability h context outcome).finite_ofProbability

end Backoff

end Categorial
