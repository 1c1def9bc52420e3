import Categorial.Forest.Basic
import Categorial.Proofs.ExactScalar
import Categorial.Training.Learner
import Mathlib.Algebra.BigOperators.Ring.Finset
import Mathlib.Algebra.Order.BigOperators.Ring.Finset
import Mathlib.Tactic.Linarith
import Mathlib.Tactic.Ring
set_option autoImplicit false

/-!
What a correction does to scores. In exact numbers the score of the gold counts less that of the predicted ones
grows by the rate times the squared distance of the two, and a feature that both count alike is as it was.
-/

namespace Categorial

open ExactScalar

/-- How often a feature is counted, in all entries that name it. -/
def countOf (counts : List (Nat × Nat)) (feature : Nat) : Nat :=
  ((counts.filter fun entry => entry.1 == feature).map Prod.snd).sum

def overlap (a b : List (Nat × Nat)) : Nat := (a.map fun (feature, n) => n * countOf b feature).sum

/-- The squared distance of two count vectors, feature by feature. -/
def squaredDistance (a b : List (Nat × Nat)) : Int :=
  ∑ feature ∈ ((a ++ b).map Prod.fst).toFinset, ((countOf a feature : Int) - countOf b feature) ^ 2

def countScore {α : Type} [Scalar α] (weights : Array α) (counts : List (Nat × Nat)) : α :=
  Scalar.sum (counts.map fun (feature, n) => Scalar.ofNat n * weightOf weights feature)

/-- How much more the gold counts score than the predicted ones. -/
def margin {α : Type} [Scalar α] (weights : Array α) (gold predicted : List (Nat × Nat)) : α :=
  countScore weights gold - countScore weights predicted

theorem Forest.goldScore_eq_countScore {α : Type} [Scalar α] (f : Forest) (weights : Array α) :
    f.goldScore weights = countScore weights f.gold := rfl

section Counts

variable {a b : List (Nat × Nat)} {m : Nat}

@[simp] theorem countOf_nil (feature : Nat) : countOf [] feature = 0 := rfl

theorem countOf_cons (entry : Nat × Nat) (counts : List (Nat × Nat)) (feature : Nat) :
    countOf (entry :: counts) feature = (if entry.1 = feature then entry.2 else 0) + countOf counts feature := by
  by_cases h : entry.1 = feature <;> simp [countOf, h]

theorem countOf_eq_zero {feature : Nat} (h : feature ∉ a.map Prod.fst) : countOf a feature = 0 := by
  have hnone : a.filter (fun entry => entry.1 == feature) = [] :=
    List.filter_eq_nil_iff.mpr fun entry hentry heq =>
      h (List.mem_map.mpr ⟨entry, hentry, eq_of_beq heq⟩)
  rw [countOf, hnone]
  rfl

theorem sum_entries {R : Type} [CommSemiring R] (g : Nat → R) (ha : ∀ entry ∈ a, entry.1 < m) :
    (a.map fun entry => (entry.2 : R) * g entry.1).sum =
      ∑ feature ∈ Finset.range m, (countOf a feature : R) * g feature := by
  induction a with
  | nil => simp
  | cons entry a ih =>
    obtain ⟨hentry, ha⟩ := List.forall_mem_cons.mp ha
    have hfirst : ∑ feature ∈ Finset.range m, ((if entry.1 = feature then entry.2 else 0 : Nat) : R) * g feature =
        (entry.2 : R) * g entry.1 := by
      rw [Finset.sum_eq_single_of_mem entry.1 (Finset.mem_range.mpr hentry)]
      · rw [if_pos rfl]
      · intro feature _ hne
        rw [if_neg (Ne.symm hne), Nat.cast_zero, zero_mul]
    rw [List.map_cons, List.sum_cons, ih ha, ← hfirst, ← Finset.sum_add_distrib]
    refine Finset.sum_congr rfl fun feature _ => ?_
    rw [countOf_cons, Nat.cast_add, add_mul]

theorem overlap_eq_sum (b : List (Nat × Nat)) (ha : ∀ entry ∈ a, entry.1 < m) :
    (overlap a b : ℝ) = ∑ feature ∈ Finset.range m, (countOf a feature : ℝ) * countOf b feature := by
  rw [overlap, ← sum_entries (fun feature => (countOf b feature : ℝ)) ha, Nat.cast_list_sum, List.map_map]
  simp [Function.comp_def]

theorem squaredDistance_eq_sum (ha : ∀ entry ∈ a, entry.1 < m) (hb : ∀ entry ∈ b, entry.1 < m) :
    (squaredDistance a b : ℝ) =
      ∑ feature ∈ Finset.range m, ((countOf a feature : ℝ) - countOf b feature) ^ 2 := by
  have hsub : ((a ++ b).map Prod.fst).toFinset ⊆ Finset.range m := by
    intro feature hfeature
    obtain ⟨entry, hentry, rfl⟩ := List.mem_map.mp (List.mem_toFinset.mp hfeature)
    exact Finset.mem_range.mpr ((List.mem_append.mp hentry).elim (ha entry) (hb entry))
  rw [squaredDistance, Finset.sum_subset hsub]
  · push_cast
    rfl
  · intro feature _ hnot
    rw [List.mem_toFinset, List.map_append, List.mem_append, not_or] at hnot
    rw [countOf_eq_zero hnot.1, countOf_eq_zero hnot.2]
    rfl

theorem squaredDistance_eq (ha : ∀ entry ∈ a, entry.1 < m) (hb : ∀ entry ∈ b, entry.1 < m) :
    (squaredDistance a b : ℝ) = overlap a a - 2 * overlap a b + overlap b b := by
  rw [squaredDistance_eq_sum ha hb, overlap_eq_sum a ha, overlap_eq_sum b ha, overlap_eq_sum b hb, Finset.mul_sum,
    ← Finset.sum_sub_distrib, ← Finset.sum_add_distrib]
  exact Finset.sum_congr rfl fun feature _ => by ring

theorem overlap_comm (ha : ∀ entry ∈ a, entry.1 < m) (hb : ∀ entry ∈ b, entry.1 < m) : overlap a b = overlap b a := by
  have h : (overlap a b : ℝ) = overlap b a := by
    rw [overlap_eq_sum b ha, overlap_eq_sum a hb]
    exact Finset.sum_congr rfl fun feature _ => mul_comm _ _
  exact_mod_cast h

theorem squaredDistance_nonneg (a b : List (Nat × Nat)) : 0 ≤ squaredDistance a b :=
  Finset.sum_nonneg fun _ _ => sq_nonneg _

theorem squaredDistance_pos_iff : 0 < squaredDistance a b ↔ ∃ feature, countOf a feature ≠ countOf b feature := by
  unfold squaredDistance
  rw [Finset.sum_pos_iff_of_nonneg fun feature _ => sq_nonneg _]
  constructor
  · rintro ⟨feature, -, hpos⟩
    refine ⟨feature, fun heq => ?_⟩
    rw [heq, sub_self] at hpos
    exact absurd hpos (by decide)
  · rintro ⟨feature, hne⟩
    refine ⟨feature, ?_, sq_pos_iff.mpr (sub_ne_zero.mpr (by exact_mod_cast hne))⟩
    by_contra hnot
    rw [List.mem_toFinset, List.map_append, List.mem_append, not_or] at hnot
    exact hne ((countOf_eq_zero hnot.1).trans (countOf_eq_zero hnot.2).symm)

end Counts

namespace Learner

theorem map_add_map_add (entry : Option EReal) (x y : ℝ) :
    (entry.map (· + (x : EReal))).map (· + (y : EReal)) = entry.map (· + ((x + y : ℝ) : EReal)) := by
  rw [Option.map_map, EReal.coe_add]
  exact congrArg (entry.map ·) (funext fun w => add_assoc w _ _)

theorem change_eq {l : Learner EReal} {step : ℝ} (hstep : l.step = step) (feature : Nat) (delta : ℝ) (i : Nat) :
    (l.change feature delta).weights[i]? =
        l.weights[i]?.map (· + ((if feature = i then delta else 0 : ℝ) : EReal)) ∧
      (l.change feature delta).totals[i]? =
        l.totals[i]?.map (· + ((step * if feature = i then delta else 0 : ℝ) : EReal)) := by
  by_cases h : feature = i
  · simp [change, Array.getElem?_modify, h, hstep]
  · simp [change, Array.getElem?_modify, h]

theorem foldl_change_eq (c : ℝ) (counts : List (Nat × Nat)) : ∀ {l : Learner EReal} {step : ℝ}, l.step = step →
    (counts.foldl (fun l (f, n) => l.change f ((c : EReal) * Scalar.ofNat n)) l).step = step ∧
      ∀ i, (counts.foldl (fun l (f, n) => l.change f ((c : EReal) * Scalar.ofNat n)) l).weights[i]? =
          l.weights[i]?.map (· + ((c * countOf counts i : ℝ) : EReal)) ∧
        (counts.foldl (fun l (f, n) => l.change f ((c : EReal) * Scalar.ofNat n)) l).totals[i]? =
          l.totals[i]?.map (· + ((step * (c * countOf counts i) : ℝ) : EReal)) := by
  induction counts with
  | nil =>
    intro l step hstep
    refine ⟨hstep, fun i => ⟨?_, ?_⟩⟩ <;> simp
  | cons entry counts ih =>
    intro l step hstep
    obtain ⟨f, n⟩ := entry
    obtain ⟨hlast, hrest⟩ := @ih (l.change f ((c * n : ℝ) : EReal)) step hstep
    refine ⟨hlast, fun i => ?_⟩
    obtain ⟨hweights, htotals⟩ := hrest i
    obtain ⟨hweight, htotal⟩ := change_eq hstep f (c * n) i
    have hcount : c * (countOf ((f, n) :: counts) i : ℝ) = (if f = i then c * n else 0) + c * countOf counts i := by
      rw [countOf_cons]
      split <;> push_cast <;> ring
    constructor
    · rw [hcount, ← map_add_map_add, ← hweight]
      exact hweights
    · rw [hcount, mul_add, ← map_add_map_add, ← htotal]
      exact htotals

theorem update_eq {l : Learner EReal} {step : ℝ} (hstep : l.step = step) (gold predicted : List (Nat × Nat))
    (rate : ℝ) : (l.update gold predicted rate).step = step ∧ ∀ i,
      (l.update gold predicted rate).weights[i]? =
        l.weights[i]?.map (· + ((rate * ((countOf gold i : ℝ) - countOf predicted i) : ℝ) : EReal)) ∧
      (l.update gold predicted rate).totals[i]? =
        l.totals[i]?.map (· + ((step * (rate * ((countOf gold i : ℝ) - countOf predicted i)) : ℝ) : EReal)) := by
  obtain ⟨hmid, hgold⟩ := foldl_change_eq rate gold hstep
  obtain ⟨hlast, hpredicted⟩ := foldl_change_eq (0 - rate) predicted hmid
  -- the negated rate of the model is, by computation, this difference
  have hupdate : l.update gold predicted rate = predicted.foldl
      (fun l (f, n) => l.change f (((0 - rate : ℝ) : EReal) * Scalar.ofNat n))
      (gold.foldl (fun l (f, n) => l.change f ((rate : EReal) * Scalar.ofNat n)) l) := rfl
  have hsplit (i : Nat) : rate * ((countOf gold i : ℝ) - countOf predicted i) =
      rate * countOf gold i + (0 - rate) * countOf predicted i := by ring
  refine ⟨hupdate ▸ hlast, fun i => ?_⟩
  rw [hupdate, (hpredicted i).1, (hpredicted i).2, (hgold i).1, (hgold i).2, hsplit, mul_add]
  exact ⟨map_add_map_add _ _ _, map_add_map_add _ _ _⟩

variable {l : Learner EReal} {gold predicted : List (Nat × Nat)}

theorem countScore_eq {weights : Array EReal} {m : Nat} {w : Nat → ℝ} (hw : ∀ i < m, weightOf weights i = w i)
    {counts : List (Nat × Nat)} (hcounts : ∀ entry ∈ counts, entry.1 < m) :
    countScore weights counts = ((∑ i ∈ Finset.range m, (countOf counts i : ℝ) * w i : ℝ) : EReal) := by
  have hterm : ∀ entry ∈ counts, Scalar.ofNat entry.2 * weightOf weights entry.1 =
      ((entry.2 * w entry.1 : ℝ) : EReal) := by
    intro entry hentry
    rw [hw entry.1 (hcounts entry hentry)]
    rfl
  rw [countScore, sum_eq, List.map_congr_left hterm, ← sum_entries w hcounts, coe_list_sum, List.map_map]
  rfl

theorem exists_entries {weights : Array EReal} (h : ∀ x ∈ weights, Finite x) :
    ∃ w : Nat → ℝ, ∀ i < weights.size, weights[i]? = some (w i : EReal) := by
  refine ⟨fun i => (weightOf weights i).toReal, fun i hi => ?_⟩
  obtain ⟨q, hq⟩ := h weights[i] (Array.getElem_mem hi)
  have hentry : weights[i]? = some (q : EReal) := by rw [Array.getElem?_eq_getElem hi, hq]
  simp [weightOf, hentry]

theorem countScore_update (hweights : ∀ w ∈ l.weights, Finite w) {step : ℝ} (hstep : l.step = step) (rate : ℝ)
    {counts : List (Nat × Nat)} (hcounts : ∀ entry ∈ counts, entry.1 < l.weights.size) :
    ∃ score : ℝ, countScore l.weights counts = score ∧ countScore (l.update gold predicted rate).weights counts =
      ((score + rate * (overlap counts gold - overlap counts predicted) : ℝ) : EReal) := by
  obtain ⟨w, hw⟩ := exists_entries hweights
  have hbefore : ∀ i < l.weights.size, weightOf l.weights i = w i := by
    intro i hi
    rw [weightOf, hw i hi]
    rfl
  have hafter : ∀ i < l.weights.size, weightOf (l.update gold predicted rate).weights i =
      ((w i + rate * ((countOf gold i : ℝ) - countOf predicted i) : ℝ) : EReal) := by
    intro i hi
    rw [weightOf, ((update_eq hstep gold predicted rate).2 i).1, hw i hi]
    rfl
  refine ⟨_, countScore_eq hbefore hcounts, ?_⟩
  rw [countScore_eq hafter hcounts, overlap_eq_sum gold hcounts, overlap_eq_sum predicted hcounts,
    ← Finset.sum_sub_distrib, Finset.mul_sum, ← Finset.sum_add_distrib]
  congr 1
  exact Finset.sum_congr rfl fun i _ => by ring

theorem update_eq_of_countOf_eq {step : ℝ} (hstep : l.step = step) (rate : ℝ) {f : Nat}
    (h : countOf gold f = countOf predicted f) : (l.update gold predicted rate).weights[f]? = l.weights[f]? ∧
      (l.update gold predicted rate).averaged[f]? = l.averaged[f]? := by
  obtain ⟨hlast, hupdate⟩ := update_eq hstep gold predicted rate
  obtain ⟨hweight, htotal⟩ := hupdate f
  rw [h, sub_self, mul_zero] at hweight htotal
  rw [mul_zero] at htotal
  have hzero (entry : Option EReal) : entry.map (· + ((0 : ℝ) : EReal)) = entry := by simp
  rw [hzero] at hweight htotal
  refine ⟨hweight, ?_⟩
  rw [averaged, averaged, Array.getElem?_zipWith, Array.getElem?_zipWith, hweight, htotal, hlast, hstep]

/-- A correction moves the score of the gold counts, and that of the predicted ones, by the rate times the difference
of their overlaps with either, so that the first gains on the second by the rate times their squared distance. It
gains at all if the rate is positive and the counts are not the same. A feature that both count alike keeps its weight
and its average. The weights are those that the totals of the learner belong to. -/
theorem update_moves_scores (hweights : ∀ w ∈ l.weights, Finite w) (hstep : Finite l.step) (rate : ℝ)
    (hgold : ∀ entry ∈ gold, entry.1 < l.weights.size)
    (hpredicted : ∀ entry ∈ predicted, entry.1 < l.weights.size) :
    countScore (l.update gold predicted rate).weights gold =
        countScore l.weights gold + ((rate * (overlap gold gold - overlap gold predicted) : ℝ) : EReal) ∧
      countScore (l.update gold predicted rate).weights predicted =
        countScore l.weights predicted +
          ((rate * (overlap gold predicted - overlap predicted predicted) : ℝ) : EReal) ∧
      margin (l.update gold predicted rate).weights gold predicted =
        margin l.weights gold predicted + ((rate * squaredDistance gold predicted : ℝ) : EReal) ∧
      (0 < squaredDistance gold predicted ↔ ∃ f, countOf gold f ≠ countOf predicted f) ∧
      (margin l.weights gold predicted < margin (l.update gold predicted rate).weights gold predicted ↔
        0 < rate ∧ ∃ f, countOf gold f ≠ countOf predicted f) ∧
      ∀ f, countOf gold f = countOf predicted f →
        (l.update gold predicted rate).weights[f]? = l.weights[f]? ∧
          (l.update gold predicted rate).averaged[f]? = l.averaged[f]? := by
  obtain ⟨step, hstep⟩ := hstep
  obtain ⟨x, hx, hx'⟩ := @countScore_update l gold predicted hweights step hstep rate gold hgold
  obtain ⟨y, hy, hy'⟩ := @countScore_update l gold predicted hweights step hstep rate predicted hpredicted
  rw [overlap_comm hpredicted hgold] at hy'
  have hdistance := squaredDistance_eq hgold hpredicted
  have hbefore : margin l.weights gold predicted = ((x - y : ℝ) : EReal) := by
    rw [margin, hx, hy]
    rfl
  have hafter : margin (l.update gold predicted rate).weights gold predicted =
      ((x - y + rate * squaredDistance gold predicted : ℝ) : EReal) := by
    rw [margin, hx', hy', hdistance]
    refine congrArg Real.toEReal ?_
    ring
  have hgain : x - y < x - y + rate * squaredDistance gold predicted ↔
      0 < rate ∧ 0 < squaredDistance gold predicted := by
    have hnonneg : (0 : ℝ) ≤ squaredDistance gold predicted := by exact_mod_cast squaredDistance_nonneg _ _
    rw [lt_add_iff_pos_right, ← @Int.cast_pos ℝ]
    exact ⟨fun h => ⟨pos_of_mul_pos_left h hnonneg, (pos_and_pos_or_neg_and_neg_of_mul_pos h).elim And.right
      fun hneg => absurd hneg.2 (not_lt.mpr hnonneg)⟩, fun h => mul_pos h.1 h.2⟩
  refine ⟨?_, ?_, ?_, squaredDistance_pos_iff, ?_, fun f hf => update_eq_of_countOf_eq hstep rate hf⟩
  · rw [hx', hx, EReal.coe_add]
  · rw [hy', hy, EReal.coe_add]
  · rw [hafter, hbefore, EReal.coe_add]
  · rw [hbefore, hafter, EReal.coe_lt_coe_iff, hgain, squaredDistance_pos_iff]

end Learner

namespace Sample

open Learner

noncomputable def threeWeights : Array EReal := #[((1 : ℝ) : EReal), ((-1 : ℝ) : EReal), ((0 : ℝ) : EReal)]

/-- A forest whose gold derivation has the first feature once and the second twice. -/
def twoCounted : Forest := ⟨0, [], [], [(0, 1), (1, 2)]⟩

theorem update_moves_scores_overlapping : (∀ w ∈ (start threeWeights).weights, Finite w) ∧
    Finite (start threeWeights).step ∧ (∀ entry ∈ twoCounted.gold, entry.1 < (start threeWeights).weights.size) ∧
    (∀ entry ∈ [(1, 1), (2, 1)], entry.1 < (start threeWeights).weights.size) ∧
    twoCounted.goldScore ((start threeWeights).update twoCounted.gold [(1, 1), (2, 1)] (1 / 2 : ℝ)).weights =
      twoCounted.goldScore threeWeights + ((3 / 2 : ℝ) : EReal) ∧
    countScore ((start threeWeights).update twoCounted.gold [(1, 1), (2, 1)] (1 / 2 : ℝ)).weights [(1, 1), (2, 1)] =
      countScore threeWeights [(1, 1), (2, 1)] ∧
    margin threeWeights twoCounted.gold [(1, 1), (2, 1)] <
      margin ((start threeWeights).update twoCounted.gold [(1, 1), (2, 1)] (1 / 2 : ℝ)).weights twoCounted.gold
        [(1, 1), (2, 1)] := by
  have hweights : ∀ w ∈ (start threeWeights).weights, Finite w := by
    intro w hw
    simp only [start, threeWeights, List.mem_toArray, List.mem_cons, List.not_mem_nil, or_false] at hw
    rcases hw with rfl | rfl | rfl <;> exact ⟨_, rfl⟩
  have hstep : Finite (start threeWeights).step := ⟨1, by simp [start]⟩
  have hgold : ∀ entry ∈ twoCounted.gold, entry.1 < 3 := by decide
  have hpredicted : ∀ entry ∈ [(1, 1), (2, 1)], entry.1 < 3 := by decide
  obtain ⟨hup, hdown, -, -, hgain, -⟩ := update_moves_scores hweights hstep (1 / 2) hgold hpredicted
  have hgg : overlap twoCounted.gold twoCounted.gold = 5 := by decide
  have hgp : overlap twoCounted.gold [(1, 1), (2, 1)] = 2 := by decide
  have hpp : overlap [(1, 1), (2, 1)] [(1, 1), (2, 1)] = 2 := by decide
  refine ⟨hweights, hstep, hgold, hpredicted, ?_, ?_, hgain.mpr ⟨by norm_num, 0, by decide⟩⟩
  · rw [Forest.goldScore_eq_countScore, hup, hgg, hgp]
    norm_num
    rfl
  · rw [hdown, hgp, hpp]
    norm_num
    rfl

end Sample

end Categorial
