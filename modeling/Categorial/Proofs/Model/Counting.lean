import Categorial.Model.Backoff
import Mathlib.Data.Finset.Card
import Mathlib.Data.List.Count
set_option autoImplicit false

namespace Categorial

theorem card_map_congr {β : Type} {xs : List β} {f g : β → Nat}
    (h : ∀ x ∈ xs, ∀ y ∈ xs, (f x = f y ↔ g x = g y)) :
    (xs.map f).toFinset.card = (xs.map g).toFinset.card := by
  induction xs with
  | nil => rfl
  | cons x xs ih =>
    have ih := ih fun y hy z hz => h y (by simp [hy]) z (by simp [hz])
    have hmem : f x ∈ (xs.map f).toFinset ↔ g x ∈ (xs.map g).toFinset := by
      simp only [List.mem_toFinset, List.mem_map]
      exact exists_congr fun y => and_congr_right fun hy => h y (by simp [hy]) x (by simp)
    rw [List.map_cons, List.map_cons, List.toFinset_cons, List.toFinset_cons]
    by_cases hx : f x ∈ (xs.map f).toFinset
    · rw [Finset.card_insert_of_mem hx, Finset.card_insert_of_mem (hmem.mp hx), ih]
    · rw [Finset.card_insert_of_notMem hx, Finset.card_insert_of_notMem fun hg => hx (hmem.mpr hg), ih]

namespace Outcomes

/-- The counts of outcomes that were seen one by one. -/
def ofList (os : List Nat) : Outcomes := os.foldl add empty

theorem ofList_append_singleton (os : List Nat) (o : Nat) : ofList (os ++ [o]) = (ofList os).add o := by
  simp [ofList]

theorem total_ofList (os : List Nat) : (ofList os).total = os.length := by
  induction os using List.reverseRecOn with
  | nil => rfl
  | append_singleton os o ih => simp [ofList_append_singleton, add, ih]

theorem mem_counts_ofList {os : List Nat} {o : Nat} : o ∈ (ofList os).counts ↔ o ∈ os := by
  induction os using List.reverseRecOn with
  | nil => simp [ofList, empty]
  | append_singleton os o' ih =>
    simp only [ofList_append_singleton, add, Std.HashMap.mem_insert, ih, List.mem_append, beq_iff_eq,
      List.mem_singleton]
    rw [or_comm, eq_comm]

theorem count_ofList (os : List Nat) (o : Nat) : (ofList os).count o = os.count o := by
  induction os using List.reverseRecOn with
  | nil => simp [ofList, empty, count]
  | append_singleton os o' ih =>
    rw [ofList_append_singleton, count, add, Std.HashMap.getD_insert, List.count_append]
    by_cases h : o' = o
    · subst h
      simp [ih]
    · have hcount : (ofList os).counts.getD o 0 = os.count o := ih
      simp [h, hcount]

theorem types_ofList (os : List Nat) : (ofList os).types = os.toFinset.card := by
  induction os using List.reverseRecOn with
  | nil => rfl
  | append_singleton os o ih =>
    have hsize : (ofList os).counts.size = os.toFinset.card := ih
    have hinsert : (os ++ [o]).toFinset = insert o os.toFinset := by
      ext x
      simp
    rw [ofList_append_singleton, types, add, Std.HashMap.size_insert, hsize, hinsert]
    by_cases h : o ∈ os
    · rw [if_pos (mem_counts_ofList.mpr h), Finset.card_insert_of_mem (List.mem_toFinset.mpr h)]
    · rw [if_neg fun hmem => h (mem_counts_ofList.mp hmem),
        Finset.card_insert_of_notMem fun hmem => h (List.mem_toFinset.mp hmem)]

end Outcomes

namespace Distribution

def observeAll (d : Distribution) (events : List (List Nat × Nat)) : Distribution :=
  events.foldl (fun d e => d.observe e.1 e.2) d

/-- The outcomes of the events whose contexts have the key. -/
def outcomesAt (width : Nat) (key : List Nat) (events : List (List Nat × Nat)) : List Nat :=
  (events.filter fun e => e.1.take width == key).map Prod.snd

theorem observeAll_append_singleton (d : Distribution) (events : List (List Nat × Nat)) (e : List Nat × Nat) :
    d.observeAll (events ++ [e]) = (d.observeAll events).observe e.1 e.2 := by
  simp [observeAll]

variable (width : Nat) (events : List (List Nat × Nat))

@[simp] theorem width_observeAll (d : Distribution) : (d.observeAll events).width = d.width := by
  induction events using List.reverseRecOn with
  | nil => rfl
  | append_singleton events e ih => rw [observeAll_append_singleton, observe, ih]

theorem outcomesAt_append_singleton (key : List Nat) (e : List Nat × Nat) :
    outcomesAt width key (events ++ [e]) =
      outcomesAt width key events ++ if e.1.take width = key then [e.2] else [] := by
  by_cases h : e.1.take width = key
  · simp [outcomesAt, h]
  · simp [outcomesAt, h]

theorem getElem?_contexts_observeAll (key : List Nat) : ((empty width).observeAll events).contexts[key]? =
    if outcomesAt width key events = [] then none
    else some (Outcomes.ofList (outcomesAt width key events)) := by
  induction events using List.reverseRecOn with
  | nil => simp [observeAll, empty, outcomesAt]
  | append_singleton events e ih =>
    rw [observeAll_append_singleton, outcomesAt_append_singleton]
    have hwidth : ((empty width).observeAll events).width = width := by simp [empty]
    simp only [observe, Distribution.key, hwidth, Std.HashMap.getElem?_insert, beq_iff_eq]
    by_cases h : e.1.take width = key
    · have hold : ((empty width).observeAll events).contexts.getD key .empty =
          Outcomes.ofList (outcomesAt width key events) := by
        rw [Std.HashMap.getD_eq_getD_getElem?, ih]
        split
        · rename_i hnil
          rw [hnil]
          rfl
        · rfl
      simp [h, hold, Outcomes.ofList_append_singleton]
    · simp [h, ih]

theorem mem_vocabulary_observeAll {o : Nat} :
    o ∈ ((empty width).observeAll events).vocabulary ↔ o ∈ events.map Prod.snd := by
  induction events using List.reverseRecOn with
  | nil => simp [observeAll, empty]
  | append_singleton events e ih =>
    rw [observeAll_append_singleton, observe, Std.HashSet.mem_insert, ih, List.map_append, List.mem_append,
      List.map_singleton, List.mem_singleton, beq_iff_eq, or_comm, eq_comm (a := o)]

theorem size_vocabulary_observeAll :
    ((empty width).observeAll events).vocabulary.size = (events.map Prod.snd).toFinset.card := by
  induction events using List.reverseRecOn with
  | nil => rfl
  | append_singleton events e ih =>
    have hinsert : ((events ++ [e]).map Prod.snd).toFinset = insert e.2 (events.map Prod.snd).toFinset := by
      ext x
      simp
    rw [observeAll_append_singleton, observe, Std.HashSet.size_insert, ih, hinsert]
    by_cases h : e.2 ∈ events.map Prod.snd
    · rw [if_pos ((mem_vocabulary_observeAll width events).mpr h),
        Finset.card_insert_of_mem (List.mem_toFinset.mpr h)]
    · rw [if_neg fun hmem => h ((mem_vocabulary_observeAll width events).mp hmem),
        Finset.card_insert_of_notMem fun hmem => h (List.mem_toFinset.mp hmem)]

end Distribution

/-- Two numberings of events tell them apart alike, from each other and from a query. -/
structure Alike {β : Type} (f g : β → List Nat × Nat) (xs : List β) (q : β) : Prop where
  contexts : ∀ width, ∀ x ∈ xs,
    ((f x).1.take width = (f q).1.take width ↔ (g x).1.take width = (g q).1.take width)
  outcomes : ∀ x ∈ xs, ∀ y ∈ q :: xs, ((f x).2 = (f y).2 ↔ (g x).2 = (g y).2)

section

variable {β : Type} {f g : β → List Nat × Nat} {xs ys : List β} {q : β}

theorem outcomesAt_map (f : β → List Nat × Nat) (width : Nat) (key : List Nat) (xs : List β) :
    Distribution.outcomesAt width key (xs.map f) =
      (xs.filter fun x => (f x).1.take width == key).map fun x => (f x).2 := by
  rw [Distribution.outcomesAt, List.filter_map, List.map_map]
  rfl

/-- The outcomes that are seen in the context of a query: there are as many of them, as many different ones, and
as many that are the outcome asked for. -/
theorem Alike.outcomesAt (h : Alike f g xs q) (hperm : xs.Perm ys) (width : Nat) {os os' : List Nat}
    (hos : os = Distribution.outcomesAt width ((f q).1.take width) (xs.map f))
    (hos' : os' = Distribution.outcomesAt width ((g q).1.take width) (ys.map g)) :
    os.length = os'.length ∧ os.count (f q).2 = os'.count (g q).2 ∧
      os.toFinset.card = os'.toFinset.card := by
  let keep : β → Bool := fun x => (f x).1.take width == (f q).1.take width
  have hkeep : ∀ x ∈ xs, keep x = ((g x).1.take width == (g q).1.take width) := by
    intro x hx
    rw [Bool.eq_iff_iff, beq_iff_eq, beq_iff_eq]
    exact h.contexts width x hx
  have hys : ys.filter (fun x => (g x).1.take width == (g q).1.take width) = ys.filter keep :=
    List.filter_congr fun x hx => (hkeep x (hperm.mem_iff.mpr hx)).symm
  have hsame : (xs.filter keep).Perm (ys.filter keep) := hperm.filter keep
  have hmem : ∀ {x}, x ∈ xs.filter keep → x ∈ xs := List.mem_of_mem_filter
  rw [outcomesAt_map] at hos hos'
  rw [hys] at hos'
  subst hos hos'
  refine ⟨by simpa using hsame.length_eq, ?_, ?_⟩
  · rw [← (hsame.map fun x => (g x).2).count_eq, List.count_eq_countP, List.count_eq_countP, List.countP_map,
      List.countP_map]
    refine List.countP_congr fun x hx => ?_
    simp only [Function.comp_apply, beq_iff_eq]
    exact h.outcomes x (hmem hx) q List.mem_cons_self
  · rw [← List.toFinset_eq_of_perm _ _ (hsame.map fun x => (g x).2)]
    exact card_map_congr fun x hx y hy => h.outcomes x (hmem hx) y (List.mem_cons_of_mem _ (hmem hy))

variable {α : Type} [Scalar α]

theorem Distribution.interpolate_congr (h : Alike f g xs q) (hperm : xs.Perm ys) (width : Nat) (lower : α) :
    ((empty width).observeAll (xs.map f)).interpolate (f q).1 (f q).2 lower =
      ((empty width).observeAll (ys.map g)).interpolate (g q).1 (g q).2 lower := by
  obtain ⟨hlength, hcount, hcard⟩ := h.outcomesAt hperm width rfl rfl
  have hnil : outcomesAt width ((f q).1.take width) (xs.map f) = [] ↔
      outcomesAt width ((g q).1.take width) (ys.map g) = [] := by
    rw [← List.length_eq_zero_iff, ← List.length_eq_zero_iff, hlength]
  have hwidth : (empty width).width = width := rfl
  unfold interpolate
  simp only [Distribution.key, width_observeAll, hwidth, getElem?_contexts_observeAll]
  by_cases h' : outcomesAt width ((g q).1.take width) (ys.map g) = []
  · rw [if_pos h', if_pos (hnil.mpr h')]
  · rw [if_neg h', if_neg fun hf => h' (hnil.mp hf)]
    simp only [Outcomes.total_ofList, Outcomes.types_ofList, Outcomes.count_ofList, hlength, hcount, hcard]

namespace Backoff

def observeAll (b : Backoff) (events : List (List Nat × Nat)) : Backoff :=
  events.foldl (fun b e => b.observe e.1 e.2) b

theorem observeAll_base (d : Distribution) (events : List (List Nat × Nat)) :
    (base d).observeAll events = base (d.observeAll events) := by
  induction events generalizing d with
  | nil => rfl
  | cons e events ih => exact ih (d.observe e.1 e.2)

theorem observeAll_specific (d : Distribution) (rest : Backoff) (events : List (List Nat × Nat)) :
    (specific d rest).observeAll events = specific (d.observeAll events) (rest.observeAll events) := by
  induction events generalizing d rest with
  | nil => rfl
  | cons e events ih => exact ih (d.observe e.1 e.2) (rest.observe e.1 e.2)

theorem probability_congr (h : Alike f g xs q) (hperm : xs.Perm ys) (base : Nat) : ∀ more,
    (((chainFrom base more).observeAll (xs.map f)).probability (f q).1 (f q).2 : α) =
      ((chainFrom base more).observeAll (ys.map g)).probability (g q).1 (g q).2
  | 0 => by
    have hcard : ((xs.map f).map Prod.snd).toFinset.card = ((ys.map g).map Prod.snd).toFinset.card := by
      rw [List.map_map, List.map_map, ← List.toFinset_eq_of_perm _ _ (hperm.map (Prod.snd ∘ g))]
      exact card_map_congr fun x hx y hy => h.outcomes x hx y (List.mem_cons_of_mem _ hy)
    rw [chainFrom, observeAll_base, observeAll_base, probability, probability,
      Distribution.size_vocabulary_observeAll, Distribution.size_vocabulary_observeAll, hcard]
    exact Distribution.interpolate_congr h hperm base _
  | more + 1 => by
    rw [chainFrom, observeAll_specific, observeAll_specific, probability, probability,
      probability_congr h hperm base more]
    exact Distribution.interpolate_congr h hperm _ _

end Backoff

end

end Categorial
