import Categorial.Proofs.Fine.Visits
set_option autoImplicit false

/-!
The live items of a pass and the marks of its beam. A coarse item has as live items its unmarked ones, in the
order of their creation. The beam marks only items of the cell that was filled last, and a binary step takes
items of shorter spans; so an item that a binary edge takes has been through the beam when the edge is made.
-/

namespace Categorial

namespace FineChart

variable {α : Type} {f f' : FineChart α}

/-- The chart has an item under this number that no beam has marked. -/
def Stands (f : FineChart α) (i : FineId) : Prop := ∃ x, f.item? i = some x ∧ x.pruned = false

/-- The lists of live items agree with the marks, and no binary edge takes a marked item. -/
structure Tidy (f : FineChart α) : Prop where
  live : ∀ id i, i ∈ f.liveOf id ↔ ∃ x, f.Has id i x ∧ x.pruned = false
  ascending : ∀ id, (f.liveOf id).Pairwise (· < ·)
  standing : ∀ i x, f.item? i = some x → ∀ e ∈ x.edges, ∀ rule l r, e.step = .binary rule l r →
    f.Stands l ∧ f.Stands r

theorem Tidy.stands (h : f.Tidy) {id : CoarseId} {i : FineId} (hi : i ∈ f.liveOf id) : f.Stands i := by
  obtain ⟨x, hx, hmark⟩ := (h.live id i).mp hi
  exact ⟨x, hx.1, hmark⟩

theorem tidy_unscored (c : CoarseChart α) : (unscored c).Tidy where
  live id i := by simp [liveOf, unscored, Has, item?]
  ascending id := by simp [liveOf, unscored]
  standing i x h := by simp [item?, unscored] at h

theorem Tidy.setRoots (h : f.Tidy) (roots : List (Root α)) : Tidy { f with roots } :=
  ⟨h.live, h.ascending, h.standing⟩

variable [Scalar α] {m : Model α} {retain : Retain} {c : CoarseChart α} {done : List CoarseId}

theorem live_of_mem_proposals {item : CoarseItem} {p : Site × FineEdge α} (hp : p ∈ f.proposals m item) :
    ∀ child ∈ p.2.step.children, ∃ id, child ∈ f.liveOf id := by
  obtain ⟨step, _, hp⟩ := List.mem_flatMap.mp hp
  intro child hchild
  cases step with
  | lexical rule word =>
    simp only [edgesOf, Option.mem_toList, edge?_eq_some] at hp
    obtain ⟨_, _, rfl⟩ := hp
    simp [FineStep.children] at hchild
  | unary rule id =>
    simp only [edgesOf, List.mem_filterMap, edge?_eq_some] at hp
    obtain ⟨_, hi, _, _, rfl⟩ := hp
    obtain rfl := List.mem_singleton.mp hchild
    exact ⟨id, (mem_liveItems.mp hi).1⟩
  | binary rule l r =>
    simp only [edgesOf, List.mem_flatMap, List.mem_filterMap, edge?_eq_some] at hp
    obtain ⟨_, hi, _, hj, _, _, rfl⟩ := hp
    simp only [FineStep.children, List.mem_cons, List.not_mem_nil, or_false] at hchild
    rcases hchild with rfl | rfl
    · exact ⟨l, (mem_liveItems.mp hi).1⟩
    · exact ⟨r, (mem_liveItems.mp hj).1⟩

theorem Stands.expand {i : FineId} (h : f.Stands i) (entry : CoarseId × CoarseItem) :
    (expand m retain f entry).Stands i := by
  obtain ⟨x, hx, hmark⟩ := h
  exact ⟨x, (item?_expand_of_lt (lt_size_of_item? hx)).trans hx, hmark⟩

theorem coarse_of_mem_refine (hlive : ∀ id, ∀ i ∈ f.liveOf id, ∃ item, f.Has id i item) {id : CoarseId}
    {item : CoarseItem} {x : FineItem α} (hx : x ∈ f.refine m retain id item) : x.coarse = id := by
  rw [refine_eq hlive] at hx
  obtain ⟨_, _, rfl⟩ := List.mem_map.mp hx
  rfl

theorem Sound.has_expand (h : Sound c m retain done f) {id id' : CoarseId} {item : CoarseItem}
    (hnew : id ∉ done) {i : FineId} : (∃ x, (FineChart.expand m retain f (id, item)).Has id' i x ∧
      x.pruned = false) ↔
        if id = id' then i ∈ List.range' f.items.size (f.refine m retain id item).length
        else ∃ x, f.Has id' i x ∧ x.pruned = false := by
  split
  · rename_i hid
    subst hid
    rw [List.mem_range'_1]
    constructor
    · rintro ⟨x, ⟨hx, hid⟩, _⟩
      rcases expand_cases h.live hx with hold | ⟨hle, _⟩
      · exact absurd (hid ▸ h.known i x hold) hnew
      · have hlt := lt_size_of_item? hx
        simp only [FineChart.expand, addItems, Array.size_append, List.size_toArray] at hlt
        exact ⟨hle, hlt⟩
    · rintro ⟨hle, hlt⟩
      have hget : (f.refine m retain id item)[i - f.items.size]? = some _ :=
        List.getElem?_eq_getElem (Nat.sub_lt_left_of_lt_add hle hlt)
      have hmem := List.mem_of_getElem? hget
      refine ⟨_, ⟨?_, ?_⟩, pruned_of_mem_refine hmem⟩
      · rw [FineChart.expand, item?_addItems, if_neg (Nat.not_lt.mpr hle)]
        exact hget
      · exact coarse_of_mem_refine h.live hmem
  · rename_i hid
    constructor
    · rintro ⟨x, ⟨hx, rfl⟩, hmark⟩
      rcases expand_cases h.live hx with hold | ⟨_, _, _, rfl⟩
      · exact ⟨x, ⟨hold, rfl⟩, hmark⟩
      · exact absurd rfl hid
    · rintro ⟨x, ⟨hx, hcoarse⟩, hmark⟩
      exact ⟨x, ⟨(item?_expand_of_lt (lt_size_of_item? hx)).trans hx, hcoarse⟩, hmark⟩

theorem Tidy.expand (h : f.Tidy) (hs : Sound c m retain done f) {id : CoarseId} {item : CoarseItem}
    (hnew : id ∉ done) : (FineChart.expand m retain f (id, item)).Tidy where
  live id' i := by
    rw [hs.has_expand hnew, FineChart.expand, liveOf_addItems]
    split
    · exact Iff.rfl
    · exact h.live id' i
  ascending id' := by
    rw [FineChart.expand, liveOf_addItems]
    split
    · exact List.pairwise_lt_range'
    · exact h.ascending id'
  standing i x hx e he rule l r hstep := by
    rcases expand_cases hs.live hx with hold | ⟨_, ref, _, rfl⟩
    · obtain ⟨hl, hr⟩ := h.standing i x hold e he rule l r hstep
      exact ⟨hl.expand _, hr.expand _⟩
    · obtain ⟨_, hp, _⟩ := mem_edgesFor.mp (mem_of_mem_kept he)
      have hlive := live_of_mem_proposals hp
      simp only [hstep, FineStep.children, List.mem_cons, List.not_mem_nil, or_false, forall_eq_or_imp,
        forall_eq] at hlive
      obtain ⟨⟨_, hl⟩, _, hr⟩ := hlive
      exact ⟨(h.stands hl).expand _, (h.stands hr).expand _⟩

theorem has_prune {cell : List CoarseId} {first : FineId} {beam : α} {id : CoarseId} {i : FineId} :
    (∃ x, (f.prune m cell first beam).Has id i x ∧ x.pruned = false) ↔
      (∃ x, f.Has id i x ∧ x.pruned = false) ∧ f.falls m first beam i = false := by
  simp only [Has, item?_prune, Option.map_eq_some_iff]
  constructor
  · rintro ⟨_, ⟨⟨x, hx, rfl⟩, hid⟩, hmark⟩
    simp only [Bool.or_eq_false_iff] at hmark
    exact ⟨⟨x, ⟨hx, hid⟩, hmark.2⟩, hmark.1⟩
  · rintro ⟨⟨x, ⟨hx, hid⟩, hmark⟩, hfalls⟩
    exact ⟨_, ⟨⟨x, hx, rfl⟩, hid⟩, by simp [hmark, hfalls]⟩

theorem le_of_falls {first : FineId} {beam : α} {i : FineId} (h : f.falls m first beam i = true) :
    first ≤ i := by
  obtain ⟨_, _, h⟩ := Option.any_eq_true _ _ |>.mp h
  exact of_decide_eq_true (Bool.and_eq_true _ _ |>.mp h).1

theorem Stands.prune {cell : List CoarseId} {first : FineId} {beam : α} {i : FineId} (h : f.Stands i)
    (hi : i < first) : (f.prune m cell first beam).Stands i := by
  obtain ⟨x, hx, hmark⟩ := h
  have hkeep : f.falls m first beam i = false :=
    Bool.eq_false_iff.mpr fun hfalls => absurd (le_of_falls hfalls) (Nat.not_le.mpr hi)
  exact ⟨{ x with pruned := f.falls m first beam i || x.pruned }, by rw [item?_prune, hx]; rfl,
    by simp [hkeep, hmark]⟩

theorem Tidy.prune (h : f.Tidy) {cell : List CoarseId} {first : FineId} {beam : α}
    (hcell : ∀ i x, f.item? i = some x → first ≤ i → x.coarse ∈ cell)
    (hearlier : ∀ i x, f.item? i = some x → ∀ e ∈ x.edges, ∀ rule l r, e.step = .binary rule l r →
      l < first ∧ r < first) : (f.prune m cell first beam).Tidy where
  live id i := by
    rw [has_prune, liveOf_prune, ← h.live]
    split
    · simp
    · rename_i hid
      refine ⟨fun hi => ⟨hi, Bool.eq_false_iff.mpr fun hfalls => hid ?_⟩, And.left⟩
      obtain ⟨x, hx, _⟩ := (h.live id i).mp hi
      exact hx.2 ▸ hcell i x hx.1 (le_of_falls hfalls)
  ascending id := by
    rw [liveOf_prune]
    split
    · exact (h.ascending id).sublist List.filter_sublist
    · exact h.ascending id
  standing i x hx e he rule l r hstep := by
    rw [item?_prune] at hx
    obtain ⟨y, hy, rfl⟩ := Option.map_eq_some_iff.mp hx
    obtain ⟨hl, hr⟩ := h.standing i y hy e he rule l r hstep
    obtain ⟨hltl, hltr⟩ := hearlier i y hy e he rule l r hstep
    exact ⟨hl.prune hltl, hr.prune hltr⟩

/-- What is added to a chart while a cell is filled: unmarked items for the coarse items of the cell. -/
structure Grown (f f' : FineChart α) (cell : List CoarseId) : Prop where
  old : ∀ i, i < f.items.size → f'.item? i = f.item? i
  added : ∀ i x, f.items.size ≤ i → f'.item? i = some x → x.coarse ∈ cell ∧ x.pruned = false

theorem Tidy.foldl_expand {entries : List (CoarseId × CoarseItem)} :
    ∀ {f : FineChart α} {done : List CoarseId}, f.Tidy → Sound c m retain done f →
      (∀ entry ∈ entries, c.item? entry.1 = some entry.2) → (done ++ entries.map Prod.fst).Nodup →
      (entries.foldl (FineChart.expand m retain) f).Tidy ∧
        f.Grown (entries.foldl (FineChart.expand m retain) f) (entries.map Prod.fst) := by
  induction entries with
  | nil =>
    refine fun {f _} h _ _ _ => ⟨h, ⟨fun _ _ => rfl, fun i x hle hx => ?_⟩⟩
    exact absurd (lt_size_of_item? hx) (Nat.not_lt.mpr hle)
  | cons entry entries ih =>
    intro f done h hs hitem hnodup
    rw [List.map_cons, List.append_cons] at hnodup
    have hnew : entry.1 ∉ done := not_mem_of_nodup hnodup
    obtain ⟨htidy, hgrown⟩ := ih (h.expand hs hnew) (hs.expand (hitem entry (by simp)) hnew)
      (fun e he => hitem e (by simp [he])) hnodup
    have hsize : f.items.size ≤ (FineChart.expand m retain f entry).items.size := by
      simp [FineChart.expand, addItems]
    refine ⟨htidy, ⟨fun i hi => ?_, fun i x hle hx => ?_⟩⟩
    · rw [List.foldl_cons, hgrown.old i (Nat.lt_of_lt_of_le hi hsize), item?_expand_of_lt hi]
    · by_cases hi : i < (FineChart.expand m retain f entry).items.size
      · rw [List.foldl_cons, hgrown.old i hi] at hx
        rcases expand_cases hs.live hx with hold | ⟨_, _, _, rfl⟩
        · exact absurd (lt_size_of_item? hold) (Nat.not_lt.mpr hle)
        · exact ⟨List.mem_cons_self, rfl⟩
      · obtain ⟨hmem, hmark⟩ := hgrown.added i x (Nat.le_of_not_lt hi) hx
        exact ⟨List.mem_cons_of_mem _ hmem, hmark⟩

end FineChart

end Categorial
