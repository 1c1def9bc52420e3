import Categorial.Proofs.Coarse.Distinct
import Categorial.Proofs.Supertags.Merged
set_option autoImplicit false

namespace Categorial

namespace Supertags

section

variable {α : Type} {t : Supertags α}

theorem count_cat (tags : List (Tag α)) (cat : CatId) :
    (tags.map Tag.cat).count cat = (scoresOf tags cat).length := by
  induction tags with
  | nil => rfl
  | cons tag tags ih =>
    unfold scoresOf at ih ⊢
    by_cases hcat : tag.cat = cat <;> simp [hcat, ih]

theorem distinct_iff_offers : t.Distinct ↔ ∀ word cat, (t.offers word cat).length ≤ 1 := by
  refine forall_congr' fun word => ?_
  rw [List.nodup_iff_count_le_one]
  exact forall_congr' fun cat => by rw [count_cat, offers]

theorem distinct_iff_words : t.Distinct ↔ ∀ tags ∈ t.words, (tags.map Tag.cat).Nodup := by
  constructor
  · intro h tags htags
    obtain ⟨word, hword⟩ := List.mem_iff_getElem?.mp htags
    have htags := h word
    rwa [all, hword, Option.getD_some] at htags
  · intro h word
    unfold all
    cases hword : t.words[word]? with
    | none => exact List.nodup_nil
    | some tags => exact h tags (List.mem_of_getElem? hword)

variable [Scalar α]

theorem nodup_sortTags {tags : List (Tag α)} :
    ((sortTags tags).map Tag.cat).Nodup ↔ (tags.map Tag.cat).Nodup :=
  ((sortTags_perm tags).map Tag.cat).nodup_iff

theorem distinct_ofWords {words : List (List (Tag α))} :
    (ofWords words).Distinct ↔ ∀ tags ∈ words, (tags.map Tag.cat).Nodup := by
  rw [distinct_iff_words, ofWords]
  simp only [List.forall_mem_map, nodup_sortTags]

theorem length_foldl_raise (xs ys : List α) : (ys.foldl raise xs).length ≤ 1 ↔ xs.length ≤ 1 := by
  cases xs with
  | cons x xs => rw [foldl_raise, List.length_cons, List.length_cons]
  | nil =>
    cases ys with
    | nil => rfl
    | cons y ys =>
      rw [List.foldl_cons, raise, foldl_raise]
      simp

theorem distinct_merge {other : Supertags α} : (t.merge other).Distinct ↔ t.Distinct := by
  rw [distinct_iff_offers, distinct_iff_offers]
  exact forall_congr' fun word => forall_congr' fun cat => by
    rw [(offers_merge_perm t other word cat).length_eq, length_foldl_raise]

theorem distinct_ofTexts {g : Grammar} {words : List (List (String × α))} (h : ofTexts g words = .ok t) :
    t.Distinct ↔ ∀ tags ∈ words, (tags.map fun p => g.catId? p.1).Nodup := by
  obtain ⟨lists, hlists, rfl⟩ := ofTexts_ok_iff.mp h
  rw [distinct_ofWords]
  refine (forall_mem_iff_of_forall₂ hlists fun tags list htags => ?_).symm
  have hcats : List.Forall₂ Eq (tags.map fun p => g.catId? p.1) (list.map (some ∘ Tag.cat)) :=
    List.forall₂_map_left_iff.mpr (List.forall₂_map_right_iff.mpr (htags.imp fun _ _ h => h.1))
  rw [List.forall₂_eq_eq_eq] at hcats
  rw [hcats, ← List.map_map, List.nodup_map_iff (Option.some_injective _)]

theorem distinct_ofGold {g : Grammar} {s : Sentence} (h : ofGold g s = .ok t) : t.Distinct := by
  obtain ⟨lists, hlists, rfl⟩ := ofGold_ok_iff.mp h
  refine distinct_ofWords.mpr fun tags htags => ?_
  obtain ⟨_, _, _, _, _, _, rfl⟩ := mem_left_of_forall₂ hlists htags
  exact List.nodup_singleton _

end

/-- The categories that the fields of a line name, of those that the grammar knows. -/
def catsNamed (g : Grammar) : List (List Char) → List CatId
  | c :: _ :: rest => (g.catId? (String.ofList c)).toList ++ catsNamed g rest
  | _ => []

section

variable {α : Type} [Written α] {g : Grammar}

theorem map_cat_readPairs {line : Nat} : ∀ {pairs : List (List Char)} {tags : List (Tag α)},
    readPairs g line pairs = .ok tags → tags.map Tag.cat = catsNamed g pairs
  | [], _, h => by cases h; rfl
  | [_], _, h => by cases h; rfl
  | c :: score :: rest, tags, h => by
    rw [readPairs] at h
    obtain ⟨x, _, h⟩ := except_bind_eq_ok.mp h
    obtain ⟨tags', htags', h⟩ := except_bind_eq_ok.mp h
    cases h
    rw [catsNamed, ← map_cat_readPairs htags']
    cases g.catId? (String.ofList c) <;> simp

/-- What a line names are the fields in the third place, the fifth and so on. -/
theorem LineReads.map_cat {s : List Char} {entry : Token × List (Tag α)} (h : LineReads g s (some entry)) :
    entry.2.map Tag.cat = catsNamed g ((Text.fields s).drop 2) := by
  obtain _ | ⟨hfields, -, htags⟩ := h
  rw [hfields]
  exact map_cat_readPairs (htags 0)

end

section

variable {α : Type} [Scalar α] [Written α] {g : Grammar}

theorem distinct_read {lines : List Text.Line} {items : List (Sentence × Supertags α)}
    (h : read g lines = .ok items) :
    (∀ item ∈ items, item.2.Distinct) ↔ ∀ s, some s ∈ lines → (catsNamed g ((Text.fields s).drop 2)).Nodup := by
  obtain ⟨entries, hentries, rfl⟩ := readFrom_ok_iff.mp h
  have hwords : (∀ item ∈ sentencesOf [] entries, item.2.Distinct) ↔
      ∀ entry ∈ entries, ∀ e, entry = some e → (e.2.map Tag.cat).Nodup := by
    simp only [distinct_iff_words]
    rw [← List.forall_mem_flatMap, flatMap_sentencesOf]
    simp only [List.reverse_nil, List.nil_append, List.forall_mem_map, nodup_sortTags, List.mem_filterMap, id_eq]
    exact ⟨fun h entry hentry e he => h e ⟨entry, hentry, he⟩, fun h e ⟨entry, hentry, he⟩ => h entry hentry e he⟩
  have hlines : (∀ s, some s ∈ lines → (catsNamed g ((Text.fields s).drop 2)).Nodup) ↔
      ∀ l ∈ lines, ∀ s, l = some s → (catsNamed g ((Text.fields s).drop 2)).Nodup :=
    ⟨fun h l hl s hs => h s (hs ▸ hl), fun h s hs => h (some s) hs s rfl⟩
  rw [hwords, hlines]
  refine (forall_mem_iff_of_forall₂ hentries fun l entry hentry => ?_).symm
  obtain ⟨s, rfl, hreads⟩ := hentry
  cases entry with
  | none =>
    obtain ⟨hblank⟩ := hreads
    simp [hblank, catsNamed]
  | some e => simp [hreads.map_cat]

/-- Tags that some sequence of operations makes, none of which was given a category twice for a word. What is merged in
may be any. -/
inductive GivenOnce : Supertags α → Prop
  | ofWords {words : List (List (Tag α))} : (∀ tags ∈ words, (tags.map Tag.cat).Nodup) → GivenOnce (ofWords words)
  | ofTexts {g : Grammar} {words : List (List (String × α))} {t : Supertags α} :
      Supertags.ofTexts g words = .ok t → (∀ tags ∈ words, (tags.map fun p => g.catId? p.1).Nodup) → GivenOnce t
  | ofGold {g : Grammar} {s : Sentence} {t : Supertags α} : Supertags.ofGold g s = .ok t → GivenOnce t
  | read {g : Grammar} {lines : List Text.Line} {items : List (Sentence × Supertags α)} {s : Sentence}
      {t : Supertags α} : Supertags.read g lines = .ok items → (s, t) ∈ items →
      (∀ l, some l ∈ lines → (catsNamed g ((Text.fields l).drop 2)).Nodup) → GivenOnce t
  | merge {t : Supertags α} (other : Supertags α) : GivenOnce t → GivenOnce (t.merge other)

theorem GivenOnce.distinct {t : Supertags α} (ht : t.GivenOnce) : t.Distinct := by
  induction ht with
  | ofWords hwords => exact distinct_ofWords.mpr hwords
  | ofTexts h hwords => exact (distinct_ofTexts h).mpr hwords
  | ofGold h => exact distinct_ofGold h
  | read h hmem hlines => exact (distinct_read h).mpr hlines _ hmem
  | merge other _ ih => exact distinct_merge.mpr ih

end

end Supertags

end Categorial
