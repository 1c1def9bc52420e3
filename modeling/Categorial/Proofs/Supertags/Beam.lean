import Categorial.Proofs.Double.Products
import Categorial.Proofs.Supertags.Merged
set_option autoImplicit false

/-!
Tags whose scores are doubles, as the program has them. As long as every score is a number and none is negative, the
beam of a word is what scores enough, though it stops at the first tag that does not: rounding takes no tag out of its
order.
-/

namespace Categorial

namespace Supertags

/-- Every score is a number, and none is negative. -/
def NotNegative (t : Supertags Double) : Prop := ∀ word, ∀ tag ∈ t.all word, Scalar.le Scalar.zero tag.score = true

variable {t other : Supertags Double}

theorem notNegative_ofWords {words : List (List (Tag Double))}
    (h : ∀ tags ∈ words, ∀ tag ∈ tags, Scalar.le Scalar.zero tag.score = true) : (ofWords words).NotNegative := by
  intro word tag htag
  rw [all_ofWords, mem_sortTags] at htag
  cases hword : words[word]? with
  | none =>
    rw [hword] at htag
    cases htag
  | some tags =>
    rw [hword] at htag
    exact h tags (List.mem_of_getElem? hword) tag htag

theorem NotNegative.number (h : t.NotNegative) {word : Nat} {tag : Tag Double} (htag : tag ∈ t.all word) :
    tag.score.isNaN = false :=
  (Double.nonneg_iff.mp (h word tag htag)).1

theorem Sorted.descending (h : t.Sorted) (hscores : t.NotNegative) (word : Nat) :
    Categorial.Descending Tag.score (t.all word) := by
  refine (h word).imp_of_mem fun ha hb hab => ?_
  rw [precedes, bne_iff_ne] at hab
  exact Double.le_of_compare (hscores.number hb) (hscores.number ha) hab

/-- The beam ends where the scores get too low, and no later tag would be in it. -/
theorem Sorted.within_eq_filter (h : t.Sorted) (hscores : t.NotNegative) (word : Nat) (beta : Double) :
    t.within word beta = (t.all word).filter fun tag =>
      (t.best? word).any fun best => Scalar.le (best.score * beta) tag.score := by
  cases hbest : t.best? word with
  | none =>
    have hnil : t.all word = [] := List.head?_eq_none_iff.mp hbest
    rw [within, hnil]
    rfl
  | some best =>
    rw [within, hbest, Option.elim_some, takeWhile_eq_filter]
    · rfl
    · exact (h.descending hscores word).imp fun hle hb => Double.totalOn.trans _ _ _ hb hle

theorem Sorted.best_mem_within (h : t.Sorted) (hscores : t.NotNegative) {word : Nat} {beta : Double}
    (hbeta : beta.Fraction) (hne : t.all word ≠ []) : ∃ best ∈ t.within word beta, t.best? word = some best ∧
      ∀ tag ∈ t.all word, Scalar.le tag.score best.score = true := by
  obtain ⟨best, rest, hall⟩ := List.exists_cons_of_ne_nil hne
  have hbest : t.best? word = some best := by rw [best?, hall, List.head?_cons]
  have hmem : best ∈ t.all word := by simp [hall]
  refine ⟨best, ?_, hbest, ?_⟩
  · rw [h.within_eq_filter hscores, List.mem_filter, hbest, Option.any_some]
    exact ⟨hmem, (Double.mul_fraction (hscores word best hmem) hbeta).2⟩
  · exact (h.descending hscores word).le_head Double.totalOn (fun _ => hscores.number)
      (by rw [hall, List.head?_cons])

theorem NotNegative.within_prefix (hscores : t.NotNegative) (word : Nat) {beta beta' : Double}
    (hbeta : beta.Fraction) (hbeta' : beta'.Fraction) (hle : Scalar.le beta' beta = true) :
    t.within word beta <+: t.within word beta' := by
  cases hbest : t.best? word with
  | none =>
    rw [within, within, hbest, Option.elim_none, Option.elim_none]
  | some best =>
    have hpos := hscores word best (List.mem_of_head? hbest)
    have hcutoff := Double.mul_fraction_mono hpos hbeta' hbeta hle
    rw [within, within, hbest, Option.elim_some, Option.elim_some]
    exact takeWhile_prefix_takeWhile fun tag _ htag => Double.totalOn.trans _ _ _ hcutoff htag

theorem Sorted.offers_merge (h : t.Sorted) (hscores : t.NotNegative) (hother : other.NotNegative) (word : Nat)
    (cat : CatId) (hne : t.offers word cat ++ other.offers word cat ≠ []) :
    ∃ x, Highest x (t.offers word cat ++ other.offers word cat) ∧
      ((t.merge other).offers word cat).Perm (x :: (t.offers word cat).tail) := by
  have hnumber {t : Supertags Double} (hscores : t.NotNegative) : ∀ x ∈ t.offers word cat, x.isNaN = false := by
    intro x hx
    obtain ⟨tag, htag, rfl⟩ := List.mem_map.mp hx
    exact hscores.number (List.mem_filter.mp htag).1
  have hdescending : Categorial.Descending id (t.offers word cat) :=
    List.pairwise_map.mpr ((h.descending hscores word).sublist List.filter_sublist)
  obtain ⟨x, hhighest, hfold⟩ :=
    exists_foldl_raise Double.totalOn (hnumber hscores) (hnumber hother) hdescending hne
  exact ⟨x, hhighest, hfold ▸ offers_merge_perm t other word cat⟩

/-- Whatever operations made the tags: they are in order, a beam has exactly the tags that score enough, with the best
one among them, and merging takes the highest score of each category without touching another. -/
theorem Obtained.keeps_order (ht : t.Obtained) (hscores : t.NotNegative) :
    (∀ word, Categorial.Descending Tag.score (t.all word)) ∧
      (∀ word (beta : Double), beta.Fraction →
        (t.within word beta = (t.all word).filter fun tag =>
          (t.best? word).any fun best => Scalar.le (best.score * beta) tag.score) ∧
        (t.all word ≠ [] → ∃ best ∈ t.within word beta, t.best? word = some best ∧
          ∀ tag ∈ t.all word, Scalar.le tag.score best.score = true) ∧
        ∀ beta' : Double, beta'.Fraction → Scalar.le beta' beta = true →
          t.within word beta <+: t.within word beta') ∧
      ∀ other : Supertags Double, other.Obtained → other.NotNegative →
        (t.merge other).length = max t.length other.length ∧
        ∀ word cat, (t.offers word cat ++ other.offers word cat = [] → (t.merge other).offers word cat = []) ∧
          (t.offers word cat ++ other.offers word cat ≠ [] →
            ∃ x, Highest x (t.offers word cat ++ other.offers word cat) ∧
              ((t.merge other).offers word cat).Perm (x :: (t.offers word cat).tail)) := by
  have hsorted := ht.sorted
  refine ⟨hsorted.descending hscores, fun word beta hbeta => ⟨hsorted.within_eq_filter hscores word beta,
    hsorted.best_mem_within hscores hbeta, fun beta' => hscores.within_prefix word hbeta⟩,
    fun other _ hother => ⟨length_merge t other, fun word cat => ⟨fun hnil => ?_,
      hsorted.offers_merge hscores hother word cat⟩⟩⟩
  obtain ⟨hours, htheirs⟩ := List.append_eq_nil_iff.mp hnil
  have hperm := offers_merge_perm t other word cat
  rw [hours, htheirs] at hperm
  exact hperm.eq_nil

end Supertags

namespace TwoTaggers

def half : Double := ⟨0x3FE0000000000000⟩

def offered : Supertags Double := .ofWords [[⟨0, half⟩, ⟨1, Scalar.one⟩], [⟨2, half⟩]]

def surer : Supertags Double := .ofWords [[⟨0, Scalar.one⟩]]

theorem notNegative_offered : offered.NotNegative ∧ surer.NotNegative :=
  ⟨Supertags.notNegative_ofWords (by decide), Supertags.notNegative_ofWords (by decide)⟩

theorem keeps_order_offered : offered.Obtained ∧ surer.Obtained ∧ half.Fraction ∧
    (∃ best ∈ offered.within 0 half, offered.best? 0 = some best) ∧ (offered.merge surer).length = 2 ∧
    ∃ x, Supertags.Highest x [half, Scalar.one] ∧ ((offered.merge surer).offers 0 0).Perm [x] := by
  have hcompare : Scalar.compare Scalar.one half = .gt := by decide
  have hall : offered.all 0 = [⟨1, Scalar.one⟩, ⟨0, half⟩] := by
    simp [offered, Supertags.all_ofWords, Supertags.sortTags, List.mergeSort, Supertags.precedes, hcompare]
  have hours : offered.offers 0 0 = [half] := by
    rw [Supertags.offers, hall]
    rfl
  have htheirs : surer.offers 0 0 = [Scalar.one] := by
    simp [surer, Supertags.offers, Supertags.all_ofWords, Supertags.sortTags, Supertags.scoresOf]
  have hhalf : half.Fraction := ⟨by decide, by decide⟩
  obtain ⟨hscores, hsurer⟩ := notNegative_offered
  have hobtained : offered.Obtained := .ofWords _
  obtain ⟨-, hbeam, hmerge⟩ := hobtained.keeps_order hscores
  obtain ⟨best, hbest, hfirst, -⟩ := (hbeam 0 half hhalf).2.1 (by simp [hall])
  obtain ⟨hlength, hoffers⟩ := hmerge surer (.ofWords _) hsurer
  have hhighest := (hoffers 0 0).2
  rw [hours, htheirs] at hhighest
  exact ⟨hobtained, .ofWords _, hhalf, ⟨best, hbest, hfirst⟩, hlength, hhighest (List.cons_ne_nil _ _)⟩

end TwoTaggers

end Categorial
