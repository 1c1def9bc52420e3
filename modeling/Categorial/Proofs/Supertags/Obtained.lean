import Categorial.Proofs.Supertags.Lines
set_option autoImplicit false

namespace Categorial

namespace Supertags

section

variable {α : Type} [Scalar α]

/-- The tags of every word are in the total order of their scores, the highest first. -/
def Sorted (t : Supertags α) : Prop := ∀ word, (t.all word).Pairwise fun a b => precedes a b = true

theorem precedes_iff_isLE {a b : Tag α} : precedes a b = true ↔ (Scalar.compare b.score a.score).isLE = true := by
  rw [precedes, bne_iff_ne]
  cases Scalar.compare b.score a.score <;> simp

section

variable [Std.TransCmp (Scalar.compare : α → α → Ordering)]

theorem precedes_trans (a b c : Tag α) (hab : precedes a b = true) (hbc : precedes b c = true) :
    precedes a c = true := by
  rw [precedes_iff_isLE] at hab hbc ⊢
  exact Std.TransCmp.isLE_trans hbc hab

theorem precedes_total (a b : Tag α) : (precedes a b || precedes b a) = true := by
  have hswap : Scalar.compare b.score a.score = (Scalar.compare a.score b.score).swap := Std.OrientedCmp.eq_swap
  rw [Bool.or_eq_true, precedes_iff_isLE, precedes_iff_isLE, hswap]
  cases Scalar.compare a.score b.score <;> simp

theorem sorted_sortTags (tags : List (Tag α)) : (sortTags tags).Pairwise fun a b => precedes a b = true :=
  List.pairwise_mergeSort precedes_trans precedes_total tags

/-- Tags that are in order already stay in the order that they have among others. -/
theorem sublist_sortTags {tags part : List (Tag α)} (h : part.Pairwise fun a b => precedes a b = true)
    (hsub : part.Sublist tags) : part.Sublist (sortTags tags) :=
  List.sublist_mergeSort precedes_trans precedes_total h hsub

theorem sorted_ofWords (words : List (List (Tag α))) : (ofWords words).Sorted := by
  intro word
  rw [all_ofWords]
  exact sorted_sortTags _

theorem Sorted.merge {t : Supertags α} (h : t.Sorted) (other : Supertags α) : (t.merge other).Sorted := by
  intro word
  rw [all_merge]
  cases other.words[word]? with
  | none => exact h word
  | some extra => exact sorted_sortTags _

end

-- What the tags are made of.

theorem requireCat_eq_ok {g : Grammar} {s : String} {cat : CatId} :
    g.requireCat s = .ok cat ↔ g.catId? s = some cat := by
  unfold Grammar.requireCat
  cases g.catId? s <;> simp

theorem ofTexts_ok_iff {g : Grammar} {words : List (List (String × α))} {t : Supertags α} :
    ofTexts g words = .ok t ↔ ∃ lists, List.Forall₂ (List.Forall₂ fun p tag =>
      g.catId? p.1 = some tag.cat ∧ tag.score = p.2) words lists ∧ t = ofWords lists := by
  have htag (p : String × α) (tag : Tag α) : (g.requireCat p.1 >>= fun cat => pure (⟨cat, p.2⟩ : Tag α)) =
      (.ok tag : Except Error (Tag α)) ↔ g.catId? p.1 = some tag.cat ∧ tag.score = p.2 := by
    rw [except_bind_eq_ok]
    constructor
    · rintro ⟨cat, hcat, h⟩
      cases h
      exact ⟨requireCat_eq_ok.mp hcat, rfl⟩
    · rintro ⟨hcat, hscore⟩
      obtain ⟨cat, score⟩ := tag
      cases hscore
      exact ⟨cat, requireCat_eq_ok.mpr hcat, rfl⟩
  unfold ofTexts
  rw [except_bind_eq_ok]
  simp only [mapM_ok_iff, htag]
  simp only [except_pure, Except.ok.injEq, eq_comm (a := t)]

theorem ofGold_ok_iff {g : Grammar} {s : Sentence} {t : Supertags α} :
    ofGold g s = .ok t ↔ ∃ lists, List.Forall₂ (fun token list => ∃ gold cat, token.gold = some gold ∧
      g.catId? gold = some cat ∧ list = [⟨cat, Scalar.one⟩]) s.tokens.toList lists ∧ t = ofWords lists := by
  unfold ofGold
  rw [except_bind_eq_ok]
  simp only [mapM_ok_iff, except_bind_eq_ok, elim_error_eq_ok, requireCat_eq_ok, except_pure, Except.ok.injEq,
    eq_comm (a := t), exists_and_left]
  simp only [eq_comm]

end

/-- Tags that some sequence of operations makes. -/
inductive Obtained {α : Type} [Scalar α] [Written α] : Supertags α → Prop
  | ofWords (words : List (List (Tag α))) : Obtained (ofWords words)
  | ofTexts {g : Grammar} {words : List (List (String × α))} {t : Supertags α} :
      Supertags.ofTexts g words = .ok t → Obtained t
  | ofGold {g : Grammar} {s : Sentence} {t : Supertags α} : Supertags.ofGold g s = .ok t → Obtained t
  | read {g : Grammar} {lines : List Text.Line} {items : List (Sentence × Supertags α)} {s : Sentence}
      {t : Supertags α} : Supertags.read g lines = .ok items → (s, t) ∈ items → Obtained t
  | merge {t other : Supertags α} : Obtained t → Obtained other → Obtained (t.merge other)

theorem Obtained.sorted {α : Type} [Scalar α] [Written α] [Std.TransCmp (Scalar.compare : α → α → Ordering)]
    {t : Supertags α} (ht : t.Obtained) : t.Sorted := by
  induction ht with
  | ofWords words => exact sorted_ofWords words
  | ofTexts h =>
    obtain ⟨lists, -, rfl⟩ := ofTexts_ok_iff.mp h
    exact sorted_ofWords lists
  | ofGold h =>
    obtain ⟨lists, -, rfl⟩ := ofGold_ok_iff.mp h
    exact sorted_ofWords lists
  | read h hmem =>
    obtain ⟨entries, -, rfl⟩ := readFrom_ok_iff.mp h
    obtain ⟨es, heq⟩ := mem_sentencesOf hmem
    obtain ⟨-, rfl⟩ := Prod.mk.inj heq
    exact sorted_ofWords _
  | merge _ _ ih => exact ih.merge _

end Supertags

end Categorial
