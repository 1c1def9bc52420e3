import Categorial.Proofs.Model.Backoff
import Categorial.Proofs.Model.Counting
import Mathlib.Algebra.BigOperators.Field
import Mathlib.Algebra.Order.BigOperators.Group.Finset
import Mathlib.Tactic.LinearCombination
set_option autoImplicit false

/-!
Smoothed probabilities are probabilities. Below the base every outcome that was seen and one more have equal
shares, and a level that knows the context mixes shares with its own relative frequencies; so at every level, and in
whatever context, the shares of all outcomes seen and of one that was not come to one. Symbols of the context beyond
the widest level are not looked at.
-/

namespace Categorial

namespace ExactScalar

theorem coe_sum (seen : Finset Nat) (p : Nat → ℝ) : ((∑ x ∈ seen, p x : ℝ) : EReal) = ∑ x ∈ seen, (p x : EReal) :=
  map_sum ofReal p seen

end ExactScalar

open ExactScalar

/-- Positive numbers for all outcomes. Over those that were seen, together with any one that was not, they come to
one. -/
structure Shares (seen : Finset Nat) (p : Nat → ℝ) : Prop where
  positive : ∀ o, 0 < p o
  sum_eq_one : ∀ o ∉ seen, ∑ x ∈ seen, p x + p o = 1

namespace Shares

variable {seen : Finset Nat}

theorem le_one {p : Nat → ℝ} (hp : Shares seen p) (o : Nat) : p o ≤ 1 := by
  by_cases ho : o ∈ seen
  · obtain ⟨other, hother⟩ := Infinite.exists_notMem_finset seen
    have hsingle : p o ≤ ∑ x ∈ seen, p x := Finset.single_le_sum (fun x _ => (hp.positive x).le) ho
    have hsum := hp.sum_eq_one other hother
    have hpos := hp.positive other
    linarith
  · have hsum := hp.sum_eq_one o ho
    have hnonneg : 0 ≤ ∑ x ∈ seen, p x := Finset.sum_nonneg fun x _ => (hp.positive x).le
    linarith

theorem uniform (seen : Finset Nat) : Shares seen fun _ => 1 / (seen.card + 1) where
  positive _ := by positivity
  sum_eq_one _ _ := by
    rw [Finset.sum_const, nsmul_eq_mul]
    field_simp

theorem mix {p : Nat → ℝ} (hp : Shares seen p) {os : List Nat} (hne : os ≠ []) (hseen : os.toFinset ⊆ seen)
    {weight : ℝ} (hnonneg : 0 ≤ weight) (hlt : weight < 1) :
    Shares seen fun o => weight * (os.count o / os.length) + (1 - weight) * p o where
  positive o := by
    have hrest := mul_pos (sub_pos.mpr hlt) (hp.positive o)
    positivity
  sum_eq_one o ho := by
    have hlength : (os.length : ℝ) ≠ 0 := by simpa using hne
    have hcount : ∑ x ∈ seen, (os.count x : ℝ) = os.length := by
      have houtside : ∀ x ∈ seen, x ∉ os.toFinset → (os.count x : ℝ) = 0 := fun x _ hx => by
        rw [List.count_eq_zero.mpr fun hmem => hx (List.mem_toFinset.mpr hmem), Nat.cast_zero]
      rw [← Finset.sum_subset hseen houtside, ← Nat.cast_sum, List.sum_toFinset_count_eq_length]
    have hnone : os.count o = 0 := List.count_eq_zero.mpr fun hmem => ho (hseen (List.mem_toFinset.mpr hmem))
    rw [Finset.sum_add_distrib, ← Finset.mul_sum, ← Finset.mul_sum, ← Finset.sum_div, hcount, hnone,
      div_self hlength]
    linear_combination (1 - weight) * hp.sum_eq_one o ho

end Shares

namespace Distribution

variable (width : Nat) (events : List (List Nat × Nat)) (context : List Nat)

theorem toFinset_outcomesAt_subset (key : List Nat) :
    (outcomesAt width key events).toFinset ⊆ (events.map Prod.snd).toFinset := by
  intro o ho
  obtain ⟨e, he, rfl⟩ := List.mem_map.mp (List.mem_toFinset.mp ho)
  exact List.mem_toFinset.mpr (List.mem_map_of_mem (List.mem_of_mem_filter he))

theorem shares_interpolate {p : Nat → ℝ} (hp : Shares (events.map Prod.snd).toFinset p) :
    ∃ q, Shares (events.map Prod.snd).toFinset q ∧
      ∀ o, ((empty width).observeAll events).interpolate context o (p o : EReal) = q o := by
  have hcontexts := getElem?_contexts_observeAll width events (((empty width).observeAll events).key context)
  split at hcontexts
  · exact ⟨p, hp, fun o => by rw [interpolate, hcontexts]⟩
  · rename_i hne
    generalize hos : outcomesAt width (((empty width).observeAll events).key context) events = os at hcontexts hne
    have hseen : os.toFinset ⊆ (events.map Prod.snd).toFinset := hos ▸ toFinset_outcomesAt_subset width events _
    have hlength : (0 : ℝ) < os.length := Nat.cast_pos.mpr (List.length_pos_iff.mpr hne)
    have htypes : (0 : ℝ) < os.toFinset.card :=
      Nat.cast_pos.mpr (Finset.card_pos.mpr ((List.toFinset_nonempty_iff os).mpr hne))
    have hlt : (os.length : ℝ) / (os.length + os.toFinset.card) < 1 := by
      rw [div_lt_one (by positivity)]
      linarith
    refine ⟨_, hp.mix hne hseen (by positivity) hlt, fun o => ?_⟩
    rw [interpolate_coe o (p o) hcontexts, Outcomes.total_ofList, Outcomes.types_ofList, Outcomes.count_ofList,
      Nat.cast_one]

variable {α : Type} [Scalar α]

theorem interpolate_eq_of_take {context' : List Nat} (h : context'.take width = context.take width) (o : Nat)
    (lower : α) : ((empty width).observeAll events).interpolate context' o lower =
      ((empty width).observeAll events).interpolate context o lower := by
  have hkey : ((empty width).observeAll events).key context' = ((empty width).observeAll events).key context := by
    rw [key, key, width_observeAll]
    exact h
  rw [interpolate, interpolate, hkey]

end Distribution

namespace Backoff

variable (base : Nat) (events : List (List Nat × Nat)) (context : List Nat)

theorem shares_probability : ∀ more, ∃ q, Shares (events.map Prod.snd).toFinset q ∧
    ∀ o, (((chainFrom base more).observeAll events).probability context o : EReal) = q o
  | 0 => by
    obtain ⟨q, hq, heq⟩ := Distribution.shares_interpolate base events context
      (Shares.uniform (events.map Prod.snd).toFinset)
    refine ⟨q, hq, fun o => ?_⟩
    rw [← heq o, chainFrom, observeAll_base, probability, Distribution.size_vocabulary_observeAll, one_eq]
    rfl
  | more + 1 => by
    obtain ⟨p, hp, hbelow⟩ := shares_probability more
    obtain ⟨q, hq, heq⟩ := Distribution.shares_interpolate (base + (more + 1)) events context hp
    refine ⟨q, hq, fun o => ?_⟩
    rw [← heq o, chainFrom, observeAll_specific, probability, hbelow]

theorem probability_eq_of_take {α : Type} [Scalar α] {context' : List Nat} (o : Nat) : ∀ more,
    context'.take (base + more) = context.take (base + more) →
      (((chainFrom base more).observeAll events).probability context' o : α) =
        ((chainFrom base more).observeAll events).probability context o
  | 0, h => by
    rw [chainFrom, observeAll_base, probability, probability]
    exact Distribution.interpolate_eq_of_take base events context h o _
  | more + 1, h => by
    have hbelow : context'.take (base + more) = context.take (base + more) := by
      have htake := congrArg (List.take (base + more)) h
      rwa [List.take_take, List.take_take, Nat.min_eq_left (by omega)] at htake
    rw [chainFrom, observeAll_specific, probability, probability, probability_eq_of_take o more hbelow]
    exact Distribution.interpolate_eq_of_take _ events context h o _

/-- Whatever was seen and whatever the context, every probability is positive and at most one, those of the outcomes
seen and of one that was not come to one, and only the first symbols of the context matter. -/
theorem sum_probability {full base : Nat} (h : base ≤ full) (events : List (List Nat × Nat))
    (context : List Nat) :
    (∀ o, 0 < (((chain full base).observeAll events).probability context o : EReal) ∧
      (((chain full base).observeAll events).probability context o : EReal) ≤ 1) ∧
    (∀ o ∉ (events.map Prod.snd).toFinset,
      ∑ x ∈ (events.map Prod.snd).toFinset,
          (((chain full base).observeAll events).probability context x : EReal) +
        ((chain full base).observeAll events).probability context o = 1) ∧
    ∀ context' : List Nat, context'.take full = context.take full → ∀ o,
      (((chain full base).observeAll events).probability context' o : EReal) =
        ((chain full base).observeAll events).probability context o := by
  obtain ⟨q, hq, heq⟩ := shares_probability base events context (full - base)
  refine ⟨fun o => ?_, fun o ho => ?_, fun context' htake o => ?_⟩
  · rw [chain, heq o]
    exact ⟨EReal.coe_pos.mpr (hq.positive o), EReal.coe_le_coe_iff.mpr (hq.le_one o)⟩
  · simp only [chain, heq]
    rw [← coe_sum, ← EReal.coe_add, hq.sum_eq_one o ho, EReal.coe_one]
  · refine probability_eq_of_take base events context o (full - base) ?_
    rwa [Nat.add_sub_of_le h]

theorem sum_probability_two : 1 ≤ 2 ∧
    ∑ x ∈ {5, 6}, (((chain 2 1).observeAll [([0, 1], 5), ([0, 2], 6), ([0, 1], 6)]).probability [0, 1] x : EReal) +
      ((chain 2 1).observeAll [([0, 1], 5), ([0, 2], 6), ([0, 1], 6)]).probability [0, 1] 1000 = 1 ∧
    0 < (((chain 2 1).observeAll [([0, 1], 5), ([0, 2], 6), ([0, 1], 6)]).probability [0, 1] 1000 : EReal) ∧
    (((chain 2 1).observeAll [([0, 1], 5), ([0, 2], 6), ([0, 1], 6)]).probability [0, 1, 9] 5 : EReal) =
      ((chain 2 1).observeAll [([0, 1], 5), ([0, 2], 6), ([0, 1], 6)]).probability [0, 1] 5 := by
  obtain ⟨hbounds, hsum, hfirst⟩ := sum_probability (by decide : 1 ≤ 2) [([0, 1], 5), ([0, 2], 6), ([0, 1], 6)] [0, 1]
  exact ⟨by decide, hsum 1000 (by decide), (hbounds 1000).1, hfirst [0, 1, 9] rfl 5⟩

end Backoff

end Categorial
