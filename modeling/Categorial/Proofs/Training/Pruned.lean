import Categorial.Proofs.Feature.Pruned
import Categorial.Proofs.Forest.Renumbered
import Categorial.Training.Trainer
set_option autoImplicit false

namespace Categorial

open Forest

namespace FeatureTable

variable (t : FeatureTable) (cutoff : Nat)

theorem newNumber?_prune (i : Nat) : newNumber? (t.prune cutoff).1.toArray i =
    t.counts[i]?.bind fun n =>
      if cutoff ≤ n then some ((t.counts.toList.take i).countP (cutoff ≤ ·)) else none := by
  simp only [newNumber?, List.getElem?_toArray, getElem?_numbers]
  cases t.counts[i]? with
  | none => rfl
  | some n => rfl

variable {t cutoff} {i new : Nat}

theorem newNumber?_eq_some {numbers : List (Option Nat)} :
    newNumber? numbers.toArray i = some new ↔ numbers[i]? = some (some new) := by
  rw [newNumber?, Option.join_eq_some_iff, List.getElem?_toArray]

theorem newNumber?_prune_lt {j new' : Nat} (hi : newNumber? (t.prune cutoff).1.toArray i = some new)
    (hj : newNumber? (t.prune cutoff).1.toArray j = some new') (hlt : i < j) : new < new' :=
  numbers_lt (newNumber?_eq_some.mp hi) (newNumber?_eq_some.mp hj) hlt

theorem filterMap_zip_renumber {β : Type} (counts : List Nat) : ∀ (xs : List β) (next : Nat),
    ((xs.zip (renumber cutoff next counts)).filterMap fun (x, new) => new.map fun _ => x) =
      ((xs.zip counts).filter fun (_, n) => cutoff ≤ n).map Prod.fst := by
  induction counts with
  | nil => simp [renumber]
  | cons n counts ih =>
    intro xs next
    cases xs with
    | nil => rfl
    | cons x xs =>
      by_cases hkept : cutoff ≤ n <;> simpa [renumber, hkept] using ih xs _

/-- Keys and weights move to the same new places. -/
theorem getElem?_prune {α : Type} (weights : Array α) (h : newNumber? (t.prune cutoff).1.toArray i = some new) :
    (t.prune cutoff).2.keys[new]? = t.keys[i]? ∧
      (Trainer.keptWeights weights (t.prune cutoff).1)[new]? = weights[i]? := by
  have hnumber := newNumber?_eq_some.mp h
  refine ⟨getElem?_keys_prune hnumber, ?_⟩
  obtain ⟨⟨n, hn, hkept⟩, rfl⟩ := getElem?_numbers_eq_some hnumber
  have hcount : t.counts.toList[i]? = some n := by rwa [Array.getElem?_toList]
  simp only [Trainer.keptWeights, prune, List.getElem?_toArray, filterMap_zip_renumber,
    getElem?_kept _ hcount hkept, Array.getElem?_toList]

theorem moved_prune (t : FeatureTable) (cutoff : Nat) (weights : Array EReal) :
    Moved (t.prune cutoff).1.toArray (zeroed (t.prune cutoff).1.toArray weights)
      (Trainer.keptWeights weights (t.prune cutoff).1) := by
  intro i
  rw [weightOf, zeroed, Array.getElem?_mapIdx]
  cases hnew : newNumber? (t.prune cutoff).1.toArray i with
  | none => cases weights[i]? <;> simp
  | some new => simp [weightOf, (getElem?_prune weights hnew).2]

end FeatureTable

/-- Dropping rare features only sets their weights to zero. Keys and weights have the same new places, and with them
the renumbered forest has the best derivation that the forest has with the dropped features weighing nothing: it
scores the same and is gold as much, and its counts are those of the features that are left, by their new
numbers and still ascending. The gold derivation scores the same too. -/
theorem Forest.best?_prune (t : FeatureTable) (cutoff : Nat) (f : Forest) (weights : Array EReal) :
    let numbers := (t.prune cutoff).1.toArray
    let kept := Trainer.keptWeights weights (t.prune cutoff).1
    (∀ i n, t.counts[i]? = some n → ((newNumber? numbers i).isSome ↔ cutoff ≤ n)) ∧
    (∀ i new, newNumber? numbers i = some new →
      (t.prune cutoff).2.keys[new]? = t.keys[i]? ∧ kept[new]? = weights[i]?) ∧
    (f.renumber numbers).best? kept = (f.best? (zeroed numbers weights)).map (fun p =>
      { p with counts := Tally.rename (newNumber? numbers) p.counts }) ∧
    (∀ p, (f.renumber numbers).best? kept = some p → Tally.Ascending p.counts) ∧
    (f.renumber numbers).goldScore kept = f.goldScore (zeroed numbers weights) := by
  intro numbers kept
  have hmoved : Moved numbers (zeroed numbers weights) kept := FeatureTable.moved_prune t cutoff weights
  have hbest := rel_best? hmoved f
  refine ⟨fun i n hi => ?_, fun i new => FeatureTable.getElem?_prune weights, ?_, fun p hp => ?_,
    (goldScore_renumber hmoved f).symm⟩
  · rw [FeatureTable.newNumber?_prune, hi]
    by_cases hkept : cutoff ≤ n <;> simp [hkept]
  · generalize f.best? (zeroed numbers weights) = best, (f.renumber numbers).best? kept = best' at hbest
    cases hbest with
    | none => rfl
    | @some p p' h =>
      obtain ⟨hscore, hcorrect, keys, hkeys, hkeys'⟩ := h
      have hcounts : Tally.rename (newNumber? numbers) p.counts = p'.counts := by
        have hmono : ∀ i j a b, newNumber? numbers i = some a → newNumber? numbers j = some b →
            compare i j = .lt → compare a b = .lt := fun i j a b hi hj hlt =>
          Nat.compare_eq_lt.mpr (FeatureTable.newNumber?_prune_lt hi hj (Nat.compare_eq_lt.mp hlt))
        have heq := ((Tally.counts_ofList keys).rename hmono).eq
          (Tally.counts_ofList (keys.filterMap (newNumber? numbers))) (.refl _)
        rw [hkeys, hkeys', ← heq]
        rfl
      rw [Option.map_some, hcounts, hscore, hcorrect]
  · rw [hp] at hbest
    generalize f.best? (zeroed numbers weights) = best at hbest
    cases hbest with
    | some h =>
      obtain ⟨-, -, keys, -, hkeys⟩ := h
      rw [hkeys]
      exact (Tally.counts_ofList _).ascending

end Categorial
