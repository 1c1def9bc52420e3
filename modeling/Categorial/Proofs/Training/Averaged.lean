import Categorial.Proofs.ExactScalar
import Categorial.Proofs.Training.Epochs
import Mathlib.Tactic.FieldSimp
import Mathlib.Tactic.Ring
set_option autoImplicit false

/-!
What averaging gives. The vectors that are averaged are nowhere kept; yet after any run of corrections and
steps, in exact numbers, the average is the mean of the weights at the beginnings of all steps so far.
-/

namespace Categorial

open ExactScalar

namespace Learner

/-- What is asked of a learner: a correction, or to go on to the next step. -/
inductive Call (α : Type) where
  | update (gold predicted : List (Nat × Nat)) (rate : α)
  | tick

section

variable {α : Type} [Scalar α]

def perform (l : Learner α) : Call α → Learner α
  | .update gold predicted rate => l.update gold predicted rate
  | .tick => l.tick

def run (l : Learner α) (calls : List (Call α)) : Learner α := calls.foldl perform l

theorem run_append (l : Learner α) (calls more : List (Call α)) : l.run (calls ++ more) = (l.run calls).run more :=
  List.foldl_append

def beginnings (l : Learner α) : List (Call α) → List (Array α)
  | [] => []
  | .update gold predicted rate :: calls => (l.update gold predicted rate).beginnings calls
  | .tick :: calls => l.tick.weights :: l.tick.beginnings calls

def entry (i : Nat) (v : Array α) : α := v[i]?.getD Scalar.zero

def mean (n : Nat) (vs : List (Array α)) : Array α :=
  Array.ofFn fun i : Fin n => Scalar.sum (vs.map (entry i)) / Scalar.ofNat vs.length

end

def Call.Exact : Call EReal → Prop
  | .update _ _ rate => Finite rate
  | .tick => True

/-- What the totals are for: the number of the step times a weight, less its total, is the sum of the values that
the weight had at the beginnings of the steps. -/
structure Tracks (n : Nat) (l : Learner EReal) (seen : List (Array EReal)) : Prop where
  size : l.weights.size = n
  seen_size : ∀ v ∈ seen, v.size = n
  step : l.step = seen.length
  balance : ∀ i < n, ∃ w u : ℝ, l.weights[i]? = some ↑w ∧ l.totals[i]? = some ↑u ∧
    (seen.map (entry i)).sum = ((seen.length * w - u : ℝ) : EReal)

theorem tracks_start {weights : Array EReal} (h : ∀ w ∈ weights, Finite w) :
    (start weights).Tracks weights.size [weights] where
  size := rfl
  seen_size v hv := by rw [List.mem_singleton.mp hv]
  step := by simp [start]
  balance i hi := by
    obtain ⟨w, hw⟩ := h weights[i] (Array.getElem_mem hi)
    have hentry : weights[i]? = some ↑w := by rw [Array.getElem?_eq_getElem hi, hw]
    refine ⟨w, 0, hentry, ?_, ?_⟩
    · simp [start, hi]
    · simp [entry, hentry]

namespace Tracks

variable {n : Nat} {l : Learner EReal} {seen : List (Array EReal)}

theorem change (h : l.Tracks n seen) (feature : Nat) {delta : EReal} (hdelta : Finite delta) :
    (l.change feature delta).Tracks n seen where
  size := Array.size_modify.trans h.size
  seen_size := h.seen_size
  step := h.step
  balance i hi := by
    obtain ⟨d, rfl⟩ := hdelta
    obtain ⟨w, u, hw, hu, hsum⟩ := h.balance i hi
    by_cases hfeature : feature = i
    · subst hfeature
      refine ⟨w + d, u + seen.length * d, ?_, ?_, ?_⟩
      · simp [Learner.change, Array.getElem?_modify, hw]
      · simp [Learner.change, Array.getElem?_modify, hu, h.step]
      · rw [hsum]
        congr 1
        ring
    · refine ⟨w, u, ?_, ?_, hsum⟩
      · simp [Learner.change, Array.getElem?_modify, hfeature, hw]
      · simp [Learner.change, Array.getElem?_modify, hfeature, hu]

theorem foldl_change {delta : Nat → EReal} (hdelta : ∀ k, Finite (delta k)) (counts : List (Nat × Nat)) :
    ∀ {l : Learner EReal}, l.Tracks n seen →
      (counts.foldl (fun l (f, k) => l.change f (delta k)) l).Tracks n seen := by
  induction counts with
  | nil => exact fun h => h
  | cons entry counts ih => exact fun h => ih (h.change entry.1 (hdelta entry.2))

theorem update (h : l.Tracks n seen) (gold predicted : List (Nat × Nat)) {rate : EReal} (hrate : Finite rate) :
    (l.update gold predicted rate).Tracks n seen := by
  obtain ⟨r, rfl⟩ := hrate
  have hgold : ∀ k, Finite ((r : EReal) * Scalar.ofNat k) := fun k => ⟨r * k, rfl⟩
  have hpredicted : ∀ k, Finite (Scalar.neg (r : EReal) * Scalar.ofNat k) := fun k => ⟨(0 - r) * k, rfl⟩
  exact foldl_change hpredicted predicted (foldl_change hgold gold h)

theorem tick (h : l.Tracks n seen) : l.tick.Tracks n (seen ++ [l.weights]) where
  size := h.size
  seen_size v hv := by
    rcases List.mem_append.mp hv with hseen | hlast
    · exact h.seen_size v hseen
    · rw [List.mem_singleton.mp hlast, h.size]
  step := by
    have hstep : l.tick.step = l.step + Scalar.one := rfl
    rw [hstep, h.step]
    simp
  balance i hi := by
    obtain ⟨w, u, hw, hu, hsum⟩ := h.balance i hi
    refine ⟨w, u, hw, hu, ?_⟩
    have hentry : entry i l.weights = ↑w := by simp [entry, hw]
    rw [List.map_append, List.sum_append, hsum, List.map_singleton, List.sum_singleton, hentry, ← EReal.coe_add,
      List.length_append, List.length_singleton, Nat.cast_add, Nat.cast_one]
    congr 1
    ring

theorem run (h : l.Tracks n seen) {calls : List (Call EReal)} (hcalls : ∀ call ∈ calls, call.Exact) :
    (l.run calls).Tracks n (seen ++ l.beginnings calls) := by
  induction calls generalizing l seen with
  | nil => simpa [Learner.run, beginnings] using h
  | cons call calls ih =>
    obtain ⟨hcall, hrest⟩ := List.forall_mem_cons.mp hcalls
    cases call with
    | update gold predicted rate => exact ih (h.update gold predicted hcall) hrest
    | tick =>
      have htracks := ih h.tick hrest
      rwa [List.append_assoc] at htracks

theorem averaged_eq_mean (h : l.Tracks n seen) (hseen : seen ≠ []) : l.averaged = mean n seen := by
  have hlength : (seen.length : ℝ) ≠ 0 := Nat.cast_ne_zero.mpr (List.length_pos_iff.mpr hseen).ne'
  refine Array.ext_getElem? fun i => ?_
  by_cases hi : i < n
  · obtain ⟨w, u, hw, hu, hsum⟩ := h.balance i hi
    have haverage : l.averaged[i]? = some ((w - u / seen.length : ℝ) : EReal) := by
      rw [averaged, Array.getElem?_zipWith, hw, hu, h.step]
      rfl
    have hmean : (mean n seen)[i]? = some (((seen.length * w - u) / seen.length : ℝ) : EReal) := by
      simp only [mean, Array.getElem?_ofFn, hi, dif_pos, sum_eq, hsum]
      rfl
    rw [haverage, hmean]
    congr 2
    field_simp
  · have haverage : l.averaged.size ≤ i := by
      rw [l.size_averaged, h.size]
      exact Nat.le_of_not_lt hi
    rw [Array.getElem?_eq_none haverage, Array.getElem?_eq_none (by simpa [mean] using hi)]

end Tracks

section

variable {α : Type} [Scalar α]

theorem beginnings_eq_nil {calls : List (Call α)} (h : .tick ∉ calls) : ∀ l : Learner α, l.beginnings calls = [] := by
  induction calls with
  | nil => exact fun _ => rfl
  | cons call calls ih =>
    intro l
    cases call with
    | update gold predicted rate => exact ih (fun hmem => h (List.mem_cons_of_mem _ hmem)) _
    | tick => exact absurd List.mem_cons_self h

end

/-- The average is the mean of the weights at the beginnings of all steps: the first weights, and those after each
tick. There are as many of these as the number of the step says, all of the same size, and what is still updated
in this step does not change the average. -/
theorem averaged_run {weights : Array EReal} (hweights : ∀ w ∈ weights, Finite w) {calls : List (Call EReal)}
    (hcalls : ∀ call ∈ calls, call.Exact) :
    ((start weights).run calls).averaged = mean weights.size (weights :: (start weights).beginnings calls) ∧
      ((start weights).run calls).step = (weights :: (start weights).beginnings calls).length ∧
      (∀ v ∈ weights :: (start weights).beginnings calls, v.size = weights.size) ∧
      ∀ updates : List (Call EReal), (∀ call ∈ updates, call.Exact) → .tick ∉ updates →
        ((start weights).run (calls ++ updates)).averaged = ((start weights).run calls).averaged := by
  have htracks := (tracks_start hweights).run hcalls
  have hmean := htracks.averaged_eq_mean (List.cons_ne_nil _ _)
  refine ⟨hmean, htracks.step, htracks.seen_size, fun updates hexact htick => ?_⟩
  have hmore := htracks.run hexact
  rw [beginnings_eq_nil htick, List.append_nil] at hmore
  rw [hmean, run_append, hmore.averaged_eq_mean (List.cons_ne_nil _ _)]

end Learner

namespace Sample

open Learner

def twoWeights (x y : ℝ) : Array EReal := #[↑x, ↑y]

/-- Two steps and the beginning of a third. The second corrects twice; a feature without a weight is left out. -/
def calls : List (Call EReal) :=
  [.update [(0, 1)] [(1, 2)] (1 : ℝ), .tick, .update [] [(0, 1)] ((2 : ℕ) : ℝ),
    .update [(1, 1), (5, 1)] [] (1 : ℝ), .tick]

theorem beginnings_calls : (start (twoWeights 3 (-1))).beginnings calls = [twoWeights 4 (-3), twoWeights 2 (-2)] := by
  have h : (start (twoWeights 3 (-1))).beginnings calls =
      [twoWeights (3 + 1 * (1 : ℕ)) (-1 + (0 - 1) * (2 : ℕ)),
        twoWeights (3 + 1 * (1 : ℕ) + (0 - (2 : ℕ)) * (1 : ℕ)) (-1 + (0 - 1) * (2 : ℕ) + 1 * (1 : ℕ))] := rfl
  rw [h]
  norm_num

theorem mean_beginnings : mean 2 [twoWeights 3 (-1), twoWeights 4 (-3), twoWeights 2 (-2)] = twoWeights 3 (-2) := by
  refine Array.ext rfl fun i hi _ => ?_
  have hcases : i = 0 ∨ i = 1 := by
    simp [mean] at hi
    omega
  rcases hcases with rfl | rfl
  · have h : ((0 + 3 + 4 + 2) / (3 : ℕ) : ℝ) = 3 := by norm_num
    exact congrArg Real.toEReal h
  · have h : ((0 + -1 + -3 + -2) / (3 : ℕ) : ℝ) = -2 := by norm_num
    exact congrArg Real.toEReal h

theorem averaged_run_two_ticks : (∀ w ∈ twoWeights 3 (-1), Finite w) ∧ (∀ call ∈ calls, call.Exact) ∧
    ((start (twoWeights 3 (-1))).run calls).averaged = twoWeights 3 (-2) ∧
    ((start (twoWeights 3 (-1))).run calls).step = (3 : ℕ) ∧
    ((start (twoWeights 3 (-1))).run (calls ++ [.update [(0, 7)] [] (1 : ℝ)])).averaged = twoWeights 3 (-2) := by
  have hweights : ∀ w ∈ twoWeights 3 (-1), Finite w := by
    intro w hw
    simp only [twoWeights, List.mem_toArray, List.mem_cons, List.not_mem_nil, or_false] at hw
    rcases hw with rfl | rfl
    · exact ⟨3, rfl⟩
    · exact ⟨-1, rfl⟩
  have hexact : ∀ gold predicted, ∀ rate : ℝ, (Call.update gold predicted (rate : EReal)).Exact :=
    fun _ _ rate => ⟨rate, rfl⟩
  have hcalls : ∀ call ∈ calls, call.Exact := by
    simp only [calls, List.forall_mem_cons]
    exact ⟨hexact _ _ _, trivial, hexact _ _ _, hexact _ _ _, trivial, by simp⟩
  obtain ⟨hmean, hstep, -, hupdates⟩ := averaged_run hweights hcalls
  rw [beginnings_calls] at hmean hstep
  have haveraged := hmean.trans mean_beginnings
  refine ⟨hweights, hcalls, haveraged, hstep, ?_⟩
  rw [hupdates _ (by simpa using hexact _ _ 1) (by simp), haveraged]

end Sample

end Categorial
