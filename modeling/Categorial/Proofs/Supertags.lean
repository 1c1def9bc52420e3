import Categorial.Supertags
import Categorial.Proofs.ExactScalar
import Categorial.Proofs.Lists
set_option autoImplicit false

namespace Categorial

namespace Supertags

section

variable {α : Type} [Scalar α]

theorem sortTags_perm (tags : List (Tag α)) : (sortTags tags).Perm tags := List.mergeSort_perm _ _

theorem mem_sortTags {tags : List (Tag α)} {tag : Tag α} : tag ∈ sortTags tags ↔ tag ∈ tags :=
  List.mem_mergeSort

theorem all_ofWords (words : List (List (Tag α))) (word : Nat) :
    (ofWords words).all word = sortTags (words[word]?.getD []) := by
  rw [all, ofWords, List.getElem?_map]
  cases words[word]? with
  | none => simp [sortTags]
  | some tags => rfl

theorem all_merge (tags other : Supertags α) (word : Nat) : (tags.merge other).all word =
    other.words[word]?.elim (tags.all word) fun extra => sortTags (extra.foldl addTag (tags.all word)) := by
  have hwords (theirs : List (List (Tag α))) : ∀ (ours : List (List (Tag α))) (word : Nat),
      (mergeWords ours theirs)[word]?.getD [] = theirs[word]?.elim (ours[word]?.getD []) fun extra =>
        sortTags (extra.foldl addTag (ours[word]?.getD [])) := by
    induction theirs with
    | nil => simp [mergeWords]
    | cons extra theirs ih =>
      intro ours word
      cases ours with
      | nil =>
        cases word with
        | zero => simp [mergeWords]
        | succ word => simpa [mergeWords] using ih [] word
      | cons tags ours =>
        cases word with
        | zero => simp [mergeWords]
        | succ word => simpa [mergeWords] using ih ours word
  exact hwords other.words tags.words word

end

def NonNegative (tags : Supertags EReal) : Prop := ∀ word, ∀ tag ∈ tags.all word, 0 ≤ tag.score

theorem within_subset {tags : Supertags EReal} (htags : tags.NonNegative) {beta beta' : EReal}
    (hbeta : beta' ≤ beta) (word : Nat) : tags.within word beta ⊆ tags.within word beta' := by
  have hcutoff : (tags.best? word).elim Scalar.top (fun b => b.score * beta') ≤
      (tags.best? word).elim Scalar.top (fun b => b.score * beta) := by
    cases hbest : tags.best? word with
    | none => simp
    | some best =>
      have hpos : 0 ≤ best.score := htags word best (List.mem_of_head? hbest)
      exact mul_le_mul_of_nonneg_left hbeta hpos
  refine (takeWhile_prefix_takeWhile fun tag _ hle => ?_).subset
  rw [ExactScalar.le_iff] at hle ⊢
  exact hcutoff.trans hle

/-- Tags that do not rise in score. -/
def Descending (tags : List (Tag EReal)) : Prop := tags.Pairwise fun a b => b.score ≤ a.score

/-- All words have their tags in descending order, as sorting and merging leave them. -/
def Ordered (tags : Supertags EReal) : Prop := ∀ word, Descending (tags.all word)

theorem precedes_iff {a b : Tag EReal} : precedes a b = true ↔ b.score ≤ a.score := by
  rw [precedes, bne_iff_ne, ExactScalar.compare_eq, ne_eq, compare_gt_iff_gt, not_lt]

theorem descending_sortTags (tags : List (Tag EReal)) : Descending (sortTags tags) := by
  refine (List.pairwise_mergeSort ?_ ?_ tags).imp precedes_iff.mp
  · intro a b c hab hbc
    exact precedes_iff.mpr ((precedes_iff.mp hbc).trans (precedes_iff.mp hab))
  · intro a b
    rw [Bool.or_eq_true, precedes_iff, precedes_iff]
    exact le_total _ _

theorem ordered_ofWords (words : List (List (Tag EReal))) : (ofWords words).Ordered := by
  intro word
  rw [all_ofWords]
  exact descending_sortTags _

theorem Ordered.merge {tags : Supertags EReal} (h : tags.Ordered) (other : Supertags EReal) :
    (tags.merge other).Ordered := by
  intro word
  rw [all_merge]
  cases other.words[word]? with
  | none => exact h word
  | some extra => exact descending_sortTags _

theorem Ordered.le_best {tags : Supertags EReal} (h : tags.Ordered) {word : Nat} {tag : Tag EReal}
    (htag : tag ∈ tags.all word) : ∃ best ∈ tags.all word, tags.best? word = some best ∧
      tag.score ≤ best.score := by
  have hdescending := h word
  rw [best?]
  cases hall : tags.all word with
  | nil => simp [hall] at htag
  | cons best rest =>
    rw [hall] at htag hdescending
    refine ⟨best, List.mem_cons_self, rfl, ?_⟩
    rcases List.mem_cons.mp htag with rfl | hrest
    · exact le_rfl
    · exact (List.pairwise_cons.mp hdescending).1 tag hrest

/-- No tag behind the first one that scores too little would score enough. -/
theorem Ordered.mem_within {tags : Supertags EReal} (h : tags.Ordered) {word : Nat} {beta : EReal}
    {tag : Tag EReal} : tag ∈ tags.within word beta ↔
      tag ∈ tags.all word ∧ ∃ best, tags.best? word = some best ∧ best.score * beta ≤ tag.score := by
  rw [within, takeWhile_eq_filter, List.mem_filter, ExactScalar.le_iff]
  · refine and_congr_right fun htag => ?_
    obtain ⟨best, _, hbest, _⟩ := h.le_best htag
    rw [hbest, Option.elim_some]
    simp
  · refine (h word).imp fun {a b} hab hb => ?_
    rw [ExactScalar.le_iff] at hb ⊢
    exact hb.trans hab

theorem exists_mem_addTag (tags : List (Tag EReal)) (tag : Tag EReal) :
    ∃ t ∈ addTag tags tag, t.cat = tag.cat ∧ tag.score ≤ t.score := by
  induction tags with
  | nil => exact ⟨tag, by simp [addTag], rfl, le_rfl⟩
  | cons t rest ih =>
    rw [addTag]
    split
    · rename_i hcat
      refine ⟨_, List.mem_cons_self, hcat, ?_⟩
      rw [ExactScalar.max_eq]
      exact le_max_right _ _
    · obtain ⟨t', ht', hcat, hle⟩ := ih
      exact ⟨t', List.mem_cons_of_mem _ ht', hcat, hle⟩

theorem le_of_mem_addTag {tags : List (Tag EReal)} {tag : Tag EReal} {top : EReal}
    (htags : ∀ t ∈ tags, t.score ≤ top) (htag : tag.score ≤ top) :
    ∀ t ∈ addTag tags tag, t.score ≤ top := by
  induction tags with
  | nil => simpa [addTag] using htag
  | cons t rest ih =>
    obtain ⟨ht, hrest⟩ := List.forall_mem_cons.mp htags
    rw [addTag]
    split
    · refine List.forall_mem_cons.mpr ⟨?_, hrest⟩
      rw [ExactScalar.max_eq]
      exact max_le ht htag
    · exact List.forall_mem_cons.mpr ⟨ht, ih hrest⟩

end Supertags

end Categorial
