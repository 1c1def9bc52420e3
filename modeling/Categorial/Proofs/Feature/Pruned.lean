import Categorial.Proofs.Feature.Numbered
import Mathlib.Data.List.ReduceOption
set_option autoImplicit false

namespace Categorial

namespace FeatureTable

theorem length_renumber (cutoff : Nat) (counts : List Nat) : ∀ next : Nat,
    (renumber cutoff next counts).length = counts.length := by
  induction counts with
  | nil => exact fun _ => rfl
  | cons n counts ih =>
    intro next
    rw [renumber]
    split <;> rw [List.length_cons, List.length_cons, ih]

/-- A feature that was seen often enough has the number of such features before it. -/
theorem getElem?_renumber (cutoff : Nat) (counts : List Nat) : ∀ next i : Nat,
    (renumber cutoff next counts)[i]? = counts[i]?.map fun n =>
      if cutoff ≤ n then some (next + (counts.take i).countP (cutoff ≤ ·)) else none := by
  induction counts with
  | nil => exact fun _ _ => rfl
  | cons n counts ih =>
    intro next i
    rw [renumber]
    cases i with
    | zero => split <;> simp [*]
    | succ i =>
      split
      · rename_i hkept
        simp [ih, hkept, Nat.add_assoc, Nat.add_comm 1]
      · rename_i hrare
        simp [ih, hrare]

theorem reduceOption_renumber (cutoff : Nat) (counts : List Nat) : ∀ next : Nat,
    (renumber cutoff next counts).reduceOption = List.range' next (counts.countP (cutoff ≤ ·)) := by
  induction counts with
  | nil => exact fun _ => rfl
  | cons n counts ih =>
    intro next
    rw [renumber]
    split
    · rename_i hkept
      rw [List.reduceOption_cons_of_some, ih, List.countP_cons_of_pos (by simpa using hkept), List.range'_succ]
    · rename_i hrare
      rw [List.reduceOption_cons_of_none, ih, List.countP_cons_of_neg (by simpa using hrare)]

theorem getElem?_kept {cutoff : Nat} {β : Type} {counts : List Nat} : ∀ (xs : List β) {i n : Nat},
    counts[i]? = some n → cutoff ≤ n → (((xs.zip counts).filter fun (_, n) => cutoff ≤ n).map Prod.fst)[
      (counts.take i).countP (cutoff ≤ ·)]? = xs[i]? := by
  induction counts with
  | nil => simp
  | cons m counts ih =>
    intro xs i n hi hn
    cases xs with
    | nil => simp
    | cons x xs =>
      cases i with
      | zero =>
        cases hi
        simp [hn]
      | succ i =>
        rw [List.getElem?_cons_succ] at hi
        have hrest := ih xs hi hn
        by_cases hkept : cutoff ≤ m <;> simpa [hkept] using hrest

section

variable (t : FeatureTable) (cutoff i : Nat)

theorem getElem?_numbers : (t.prune cutoff).1[i]? = t.counts[i]?.map fun n =>
    if cutoff ≤ n then some ((t.counts.toList.take i).countP (cutoff ≤ ·)) else none := by
  simp only [prune, getElem?_renumber, Array.getElem?_toList, Nat.zero_add]

variable {t cutoff i} {new : Nat}

theorem getElem?_numbers_eq_some (h : (t.prune cutoff).1[i]? = some (some new)) :
    (∃ n, t.counts[i]? = some n ∧ cutoff ≤ n) ∧ new = (t.counts.toList.take i).countP (cutoff ≤ ·) := by
  rw [getElem?_numbers] at h
  obtain ⟨n, hn, h⟩ := Option.map_eq_some_iff.mp h
  split at h
  · rename_i hkept
    exact ⟨⟨n, hn, hkept⟩, (Option.some.inj h).symm⟩
  · cases h

theorem numbers_lt {j new' : Nat} (hi : (t.prune cutoff).1[i]? = some (some new))
    (hj : (t.prune cutoff).1[j]? = some (some new')) (hlt : i < j) : new < new' := by
  obtain ⟨⟨n, hn, hkept⟩, rfl⟩ := getElem?_numbers_eq_some hi
  obtain ⟨_, rfl⟩ := getElem?_numbers_eq_some hj
  -- the first of the two is itself one of those before the second
  have hcount : (t.counts.toList.take (i + 1)).countP (cutoff ≤ ·) =
      (t.counts.toList.take i).countP (cutoff ≤ ·) + 1 := by
    rw [List.take_add_one, Array.getElem?_toList, hn, List.countP_append]
    simp [hkept]
  have hprefix : (t.counts.toList.take (i + 1)).Sublist (t.counts.toList.take j) :=
    List.take_sublist_take_left hlt
  have hle := hprefix.countP_le (p := (cutoff ≤ ·))
  omega

theorem getElem?_keys_prune (h : (t.prune cutoff).1[i]? = some (some new)) :
    (t.prune cutoff).2.keys[new]? = t.keys[i]? := by
  obtain ⟨⟨n, hn, hkept⟩, rfl⟩ := getElem?_numbers_eq_some h
  have hcount : t.counts.toList[i]? = some n := by rwa [Array.getElem?_toList]
  simp only [prune, List.getElem?_toArray, getElem?_kept _ hcount hkept, Array.getElem?_toList]

theorem mem_keys_prune {key : Feature} (h : key ∈ (t.prune cutoff).2.keys) :
    ∃ (i n : Nat), t.keys[i]? = some key ∧ t.counts[i]? = some n ∧ cutoff ≤ n := by
  simp only [prune, List.mem_toArray, List.mem_map, List.mem_filter, Prod.exists, decide_eq_true_eq,
    exists_and_right, exists_eq_right] at h
  obtain ⟨n, hmem, hkept⟩ := h
  obtain ⟨i, hi⟩ := List.mem_iff_getElem?.mp hmem
  obtain ⟨hkey, hn⟩ := List.getElem?_zip_eq_some.mp hi
  rw [Array.getElem?_toList] at hkey hn
  exact ⟨i, n, hkey, hn, hkept⟩

end

section

variable {t : FeatureTable} (h : t.Consistent) (cutoff : Nat)

include h

theorem size_prune : (t.prune cutoff).2.size = t.counts.toList.countP (cutoff ≤ ·) := by
  have hlength : t.counts.toList.length ≤ t.keys.toList.length := by
    simp [h.counts]
  have hcounts : (t.keys.toList.zip t.counts.toList).map Prod.snd = t.counts.toList := List.map_snd_zip hlength
  conv => rhs; rw [← hcounts, List.countP_map, List.countP_eq_length_filter]
  simp [prune, size, Function.comp_def]

theorem lt_size_prune {i new : Nat} (hi : (t.prune cutoff).1[i]? = some (some new)) :
    new < (t.prune cutoff).2.size := by
  have hmem : some new ∈ renumber cutoff 0 t.counts.toList := List.mem_of_getElem? hi
  rw [← List.reduceOption_mem_iff, reduceOption_renumber, List.mem_range'_1] at hmem
  rw [size_prune h]
  omega

theorem Consistent.prune : (t.prune cutoff).2.Consistent where
  keys := by
    have hfst : (t.keys.toList.zip t.counts.toList).map Prod.fst = t.keys.toList :=
      List.map_fst_zip (by simp [h.counts])
    have hsublist : (((t.keys.toList.zip t.counts.toList).filter fun kept => cutoff ≤ kept.2).map
        Prod.fst).Sublist t.keys.toList := by
      conv => rhs; rw [← hfst]
      exact List.filter_sublist.map Prod.fst
    have happend := Positions.empty.append (hsublist.nodup h.keys.nodup) (fun k _ => by simp)
    rwa [Array.empty_append] at happend
  counts := by simp [FeatureTable.prune]
  symbols := h.symbols

variable {cutoff}

/-- The number that pruning gives a feature is the one under which the pruned table has it, if it has it. -/
theorem Consistent.getElem?_numbers {i : Nat} {key : Feature} (hkey : t.keys[i]? = some key) :
    (t.prune cutoff).1[i]? = some ((t.prune cutoff).2.get? key) := by
  have hpruned := h.prune cutoff
  obtain ⟨n, hn⟩ : ∃ n, t.counts[i]? = some n := by
    have hi : i < t.counts.size := h.counts ▸ (Array.getElem?_eq_some_iff.mp hkey).1
    exact ⟨_, Array.getElem?_eq_getElem hi⟩
  by_cases hkept : cutoff ≤ n
  · have hnumber : (t.prune cutoff).1[i]? = some (some ((t.counts.toList.take i).countP (cutoff ≤ ·))) := by
      rw [FeatureTable.getElem?_numbers, hn, Option.map_some, if_pos hkept]
    rw [hnumber, get?, (hpruned.keys key _).mpr ((getElem?_keys_prune hnumber).trans hkey)]
  · have hnone : (t.prune cutoff).2.get? key = none := by
      by_contra hfound
      obtain ⟨new, hnew⟩ := Option.ne_none_iff_exists'.mp hfound
      obtain ⟨i', n', hkey', hn', hkept'⟩ :=
        mem_keys_prune (Array.mem_of_getElem? ((hpruned.keys key new).mp hnew))
      -- a key stands at one place only, and there it was seen too seldom
      obtain rfl := h.keys.inj hkey hkey'
      exact hkept ((Option.some.inj (hn.symm.trans hn')) ▸ hkept')
    rw [FeatureTable.getElem?_numbers, hn, hnone, Option.map_some, if_neg hkept]

end

/-- The numbers tell what is left of one table in another. -/
structure Pruning (t : FeatureTable) (cutoff : Nat) (numbers : List (Option Nat)) (t' : FeatureTable) : Prop where
  length : numbers.length = t.size
  dropped : ∀ i : Nat, numbers[i]? = some none ↔ i < t.size ∧ t.count i < cutoff
  ascending : ∀ i j new new' : Nat, i < j → numbers[i]? = some (some new) → numbers[j]? = some (some new') →
    new < new'
  moved : ∀ (i : Nat) (key : Feature), t.keys[i]? = some key → numbers[i]? = some (t'.get? key)

theorem Consistent.pruning {t : FeatureTable} (h : t.Consistent) (cutoff : Nat) :
    Pruning t cutoff (t.prune cutoff).1 (t.prune cutoff).2 where
  length := by rw [FeatureTable.prune, length_renumber, Array.length_toList, h.counts, size]
  dropped i := by
    rw [FeatureTable.getElem?_numbers, count, size, ← h.counts]
    by_cases hi : i < t.counts.size <;> simp [hi]
  ascending _ _ _ _ hlt hi hj := numbers_lt hi hj hlt
  moved _ _ hkey := h.getElem?_numbers hkey

end FeatureTable

end Categorial
