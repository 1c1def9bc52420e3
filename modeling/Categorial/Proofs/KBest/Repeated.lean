import Categorial.Proofs.KBest.Agreement
import Categorial.Proofs.KBest.Once
import Categorial.Proofs.Supertags.Distinct
set_option autoImplicit false

/-!
Derivations that the best `k` list twice. A word that is given a category twice has its step twice in the coarse chart,
and a fine pass keeps both; where no step is there twice, the best derivations of every model differ.
-/

namespace Categorial

namespace Supertags

/-- Where the repeated categories of a word come from, and what comes of them. Each operation repeats those that it is
given; a chart repeats a step for those that the beam leaves in and that a rule takes; and derivations repeat only where
steps do. -/
structure RepeatsAsGiven (g : Grammar) : Prop where
  words : ∀ words : List (List (Tag Double)),
    (ofWords words).Distinct ↔ ∀ tags ∈ words, (tags.map Tag.cat).Nodup
  texts : ∀ (words : List (List (String × Double))) (t : Supertags Double), ofTexts g words = .ok t →
    (t.Distinct ↔ ∀ tags ∈ words, (tags.map fun p => g.catId? p.1).Nodup)
  gold : ∀ (s : Sentence) (t : Supertags Double), ofGold g s = .ok t → t.Distinct
  lines : ∀ (lines : List Text.Line) (items : List (Sentence × Supertags Double)), read g lines = .ok items →
    ((∀ item ∈ items, item.2.Distinct) ↔ ∀ s, some s ∈ lines → (catsNamed g ((Text.fields s).drop 2)).Nodup)
  merged : ∀ t other : Supertags Double, (t.merge other).Distinct ↔ t.Distinct
  sequences : ∀ t : Supertags Double, t.GivenOnce → t.Distinct
  steps : ∀ (t : Supertags Double) (s : Sentence) (beta : Double) (maxItems : Nat) (c : CoarseChart Double),
    CoarseChart.build g s t beta maxItems = .ok c →
      (c.StepsOnce ↔ ∀ word < s.length, (c.lexicalCats t word).Nodup) ∧ (t.Distinct → c.StepsOnce)
  derivations : ∀ (t : Supertags Double) (s : Sentence) (beta : Double) (maxItems : Nat) (c : CoarseChart Double),
    CoarseChart.build g s t beta maxItems = .ok c → c.StepsOnce →
      ∀ (m : Model Double) (retain : Retain) (beam : Option Double) (f : FineChart Double) (k : Nat),
        FineChart.build c m retain beam = .ok f → ((f.kBest k).map Parse.tree).Nodup

theorem repeatsAsGiven {gid : Nat} {categories : Array Category} {rules : List Rule}
    {markups : List (CatId × Markup)} {g : Grammar} (hg : Grammar.ofRules gid categories rules markups = .ok g) :
    RepeatsAsGiven g where
  words _ := distinct_ofWords
  texts _ _ := distinct_ofTexts
  gold _ _ := distinct_ofGold
  lines _ _ := distinct_read
  merged _ _ := distinct_merge
  sequences _ := GivenOnce.distinct
  steps t s beta maxItems c hc := by
    obtain ⟨rfl, rfl, hsat, _⟩ := CoarseChart.build_ok hc
    have hindexed := Grammar.indexed_ofRules hg
    exact ⟨hsat.stepsOnce_iff hindexed, fun ht span hspan id item hmem => hsat.nodup_steps hindexed ht hspan hmem⟩
  derivations t s beta maxItems c hc hsteps m retain beam f k hf := by
    obtain ⟨rfl, rfl, hsat, hwhole⟩ := CoarseChart.build_ok hc
    have hroots : f.roots = f.findRoots m := congrArg FineChart.roots (FineChart.build_ok hf)
    exact FineChart.nodup_kBest (FineChart.sound_build hsat hf) hsat (Grammar.indexed_ofRules hg)
      (FineChart.once_build hsteps hf) rfl hwhole hroots k

end Supertags

namespace TwiceTagged

/-! One word with one category, which its tagger names twice. -/

open CoarseChart SwappedZeros

def tags : Supertags Double := .ofWords [[⟨0, one⟩, ⟨0, one⟩]]

def chart (g : Grammar) : CoarseChart Double :=
  (empty g word one).addCell ⟨0, 1⟩ #[⟨0, ⟨0, 1⟩, .base, #[.lexical 0 0, .lexical 0 0]⟩]

theorem all_tags : tags.all 0 = [⟨0, one⟩, ⟨0, one⟩] := by
  have hcompare : Scalar.compare one one = .eq := by decide
  simp [tags, Supertags.all_ofWords, Supertags.sortTags, List.mergeSort, Supertags.precedes, hcompare]

section

variable {g : Grammar} (hg : g.Indexed) (hrules : g.rules = rules.toArray)

include hg hrules

theorem build_eq : build g word tags one 10 = .ok (chart g) := by
  have hsteps : (empty g word one).lexicalSteps tags 0 = [(0, .lexical 0 0), (0, .lexical 0 0)] := by
    have hgrammar : (empty g word one : CoarseChart Double).grammar = g := rfl
    have hbeta : (empty g word one : CoarseChart Double).beta = one := rfl
    have hwithin : tags.within 0 one = [⟨0, one⟩, ⟨0, one⟩] := by
      simp only [Supertags.within, Supertags.best?, all_tags]
      rfl
    simp [lexicalSteps, hgrammar, hbeta, hwithin, lexicalRule?_eq hg hrules]
  refine build_word hg hrules hsteps (by decide) ?_
  have hwhole : (chart g).itemsOver (chart g).wholeSpan =
    [(0, ⟨0, ⟨0, 1⟩, .base, #[.lexical 0 0, .lexical 0 0]⟩)] := rfl
  have hgrammar : (chart g).grammar = g := rfl
  have hspans : (chart g).spans = true := by
    simp [spans, hwhole, Grammar.isStart, hgrammar, topRule?_eq hg hrules]
  exact hspans

end

def item : FineItem Double :=
  ⟨0, ⟨0, ⟨0, 1⟩, .none⟩, .minusZero,
    [⟨.lexical 0 0, .minusZero, .minusZero⟩, ⟨.lexical 0 0, .minusZero, .minusZero⟩], false⟩

def fine (g : Grammar) (roots : List (Root Double)) : FineChart Double :=
  ⟨chart g, #[item], (∅ : Std.HashMap CoarseId (List FineId)).insert 0 [0], roots⟩

theorem fine_eq {g : Grammar} (hg : g.Indexed) (hrules : g.rules = rules.toArray) {f : FineChart Double}
    (hf : FineChart.build (chart g) zeros .all none = .ok f) : f = fine g [⟨0, 2, .minusZero, .minusZero⟩] := by
  have htop := (topRule?_eq hg hrules).1
  have hretain : retainEdge .all [⟨.lexical 0 0, .minusZero, .minusZero⟩] ⟨.lexical 0 0, .minusZero, .minusZero⟩ =
      item.edges :=
    insertByScore_append FineEdge.score _ [_] [] (by simp; decide) (by simp)
  have hrefine : (FineChart.unscored (chart g)).refine zeros .all 0
      ⟨0, ⟨0, 1⟩, .base, #[.lexical 0 0, .lexical 0 0]⟩ = [item] := by
    have hedges : (FineChart.unscored (chart g)).edgesOf zeros
        ⟨0, ⟨0, 1⟩, .base, #[.lexical 0 0, .lexical 0 0]⟩ (.lexical 0 0) =
          [(item.site, ⟨.lexical 0 0, .minusZero, .minusZero⟩)] := rfl
    simp [FineChart.refine, hedges, FineChart.addEdge, hretain, item]
  have hfill : FineChart.fill zeros .all none (FineChart.unscored (chart g)) ⟨0, 1⟩ = fine g [] := by
    have hlevels : FineChart.levels ((FineChart.unscored (chart g)).coarse.itemsOver ⟨0, 1⟩) =
      [(0, ⟨0, ⟨0, 1⟩, .base, #[.lexical 0 0, .lexical 0 0]⟩)] := rfl
    rw [FineChart.fill, hlevels, List.foldl_cons, List.foldl_nil, FineChart.expand, hrefine]
    rfl
  have hspansOf : spansOf (chart g).sentence.length = [⟨0, 1⟩] := rfl
  have hfine : f = fine g (f.findRoots zeros) := by
    conv => lhs; rw [FineChart.build_ok hf, hspansOf, List.foldl_cons, List.foldl_nil, hfill]
    rfl
  have hroots (roots : List (Root Double)) : (fine g roots).findRoots zeros = [⟨0, 2, .minusZero, .minusZero⟩] := by
    have hover : (fine g roots).coarse.itemsOver (fine g roots).coarse.wholeSpan =
      [(0, ⟨0, ⟨0, 1⟩, .base, #[.lexical 0 0, .lexical 0 0]⟩)] := rfl
    have hgrammar : (fine g roots).coarse.grammar = g := rfl
    have hlive : (fine g roots).liveItems 0 = [(0, item)] := by
      simp [FineChart.liveItems, FineChart.liveOf, FineChart.item?, fine]
    have hroot : (fine g roots).root? zeros 2 0 item = some ⟨0, 2, .minusZero, .minusZero⟩ := rfl
    simp only [FineChart.findRoots, hover, hgrammar, hlive, htop, List.flatMap_cons, List.flatMap_nil,
      List.filterMap_cons, List.filterMap_nil, hroot]
    rfl
  have hfound : f.findRoots zeros = [⟨0, 2, .minusZero, .minusZero⟩] := by
    rw [hfine]
    exact hroots _
  rw [hfine, hfound]

theorem kBest_fine (g : Grammar) : ((fine g [⟨0, 2, .minusZero, .minusZero⟩]).kBest 2).map Parse.tree =
    [.leaf ⟨0, 0⟩ ⟨0, 1⟩, .leaf ⟨0, 0⟩ ⟨0, 1⟩] := by
  have hrankings : (fine g [⟨0, 2, .minusZero, .minusZero⟩]).rankings 2 =
    #[FineChart.rank 2 (FineChart.rankedEdges #[] item)] := rfl
  have hroots : (fine g [⟨0, 2, .minusZero, .minusZero⟩]).rootEdges
      #[FineChart.rank 2 (FineChart.rankedEdges #[] item)] = [⟨.minusZero, .minusZero,
        [FineChart.rank 2 (FineChart.rankedEdges #[] item)],
        fun trees => trees.head?.getD (.branch ⟨0, 0⟩ ⟨0, 0⟩ [])⟩] := rfl
  rw [FineChart.kBest, hrankings, hroots]
  rfl

/-- The tagger names the category twice, and the best two derivations are one. -/
theorem repeatsAsGiven_twice : ∃ g, Grammar.ofRules 7 categories rules [] = .ok g ∧ Supertags.RepeatsAsGiven g ∧
    ¬tags.Distinct ∧ ∃ c f, CoarseChart.build g word tags one 10 = .ok c ∧ ¬c.StepsOnce ∧
      FineChart.build c zeros .all none = .ok f ∧ ¬((f.kBest 2).map Parse.tree).Nodup := by
  obtain ⟨g, hg, hid, hrules⟩ := exists_grammar
  have hindexed := Grammar.indexed_ofRules hg
  have hchart := build_eq hindexed hrules
  obtain ⟨f, hf⟩ := FineChart.exists_build (chart g) (m := zeros) hid.symm .all none
  have hrepeats := Supertags.repeatsAsGiven hg
  have hkBest : ¬((f.kBest 2).map Parse.tree).Nodup := by
    rw [fine_eq hindexed hrules hf, kBest_fine]
    simp
  have hsteps : ¬(chart g).StepsOnce := fun h => hkBest (hrepeats.derivations _ _ _ _ _ hchart h _ _ _ f 2 hf)
  exact ⟨g, hg, hrepeats, fun h => hsteps ((hrepeats.steps _ _ _ _ _ hchart).2 h), chart g, f, hchart, hsteps, hf,
    hkBest⟩

end TwiceTagged

end Categorial
