import Categorial.Training.Trainer
import Categorial.Proofs.Forest.Gold
import Categorial.Proofs.Grammar.Contents
import Categorial.Proofs.Supertags
import Categorial.Proofs.Treebank.Resolved
set_option autoImplicit false

/-!
Training does not lose a gold derivation that the grammar reproduces: with the gold categories among the tags
it is an analysis of its sentence under any beam, so that it is in the chart and in the forest.
-/

namespace Categorial

namespace Supertags

variable {tags : Supertags EReal} {gold : Derivation} {word : Nat}

theorem exists_withGold (htags : tags.Ordered) (hnonneg : tags.NonNegative) {leaf : Step × Span}
    (hleaf : gold.leaves[word]? = some leaf) : ∃ tag ∈ (tags.withGold gold).all word,
      tag.cat = leaf.1.cat ∧ 0 ≤ tag.score ∧ ∀ t ∈ (tags.withGold gold).all word, t.score ≤ tag.score := by
  -- the score with which the gold category is added
  let top : EReal := (tags.best? word).elim Scalar.one Tag.score
  have htop : 0 ≤ top ∧ ∀ t ∈ tags.all word, t.score ≤ top := by
    cases hbest : tags.best? word with
    | none =>
      refine ⟨by simp [top, hbest], fun t ht => ?_⟩
      obtain ⟨_, _, hsome, _⟩ := htags.le_best ht
      cases hbest.symm.trans hsome
    | some best =>
      simp only [top, hbest, Option.elim_some]
      refine ⟨hnonneg word best (List.mem_of_head? hbest), fun t ht => ?_⟩
      obtain ⟨_, _, hsome, hle⟩ := htags.le_best ht
      cases hbest.symm.trans hsome
      exact hle
  have hall : (tags.withGold gold).all word = sortTags (addTag (tags.all word) ⟨leaf.1.cat, top⟩) := by
    simp [withGold, all_merge, ofWords, hleaf, sortTags, top]
  have hle : ∀ t ∈ addTag (tags.all word) ⟨leaf.1.cat, top⟩, t.score ≤ top := le_of_mem_addTag htop.2 le_rfl
  obtain ⟨tag, htag, hcat, hge⟩ := exists_mem_addTag (tags.all word) ⟨leaf.1.cat, top⟩
  rw [hall]
  refine ⟨tag, mem_sortTags.mpr htag, hcat, htop.1.trans hge, fun t ht => ?_⟩
  exact (hle t (mem_sortTags.mp ht)).trans hge

theorem offers_withGold (htags : tags.Ordered) (hnonneg : tags.NonNegative) {beta : EReal} (hbeta : beta ≤ 1)
    {leaf : Step × Span} (hleaf : gold.leaves[word]? = some leaf) :
    (tags.withGold gold).Offers beta word leaf.1.cat := by
  obtain ⟨tag, htag, hcat, hpos, hmax⟩ := exists_withGold htags hnonneg hleaf
  have hordered : (tags.withGold gold).Ordered := htags.merge _
  obtain ⟨best, hmem, hbest, hle⟩ := hordered.le_best htag
  -- so the gold category scores what the best one does, and a beam is no larger than one
  have hscore : best.score = tag.score := le_antisymm (hmax best hmem) hle
  refine ⟨tag, hordered.mem_within.mpr ⟨htag, best, hbest, ?_⟩, hcat⟩
  rw [hscore]
  exact mul_le_of_le_one_right hpos hbeta

end Supertags

section

variable {g : Grammar} {t : BankTree} {gold : Derivation} {tags : Supertags EReal} {beta : EReal}

theorem Grammar.analysis_of_resolve (hg : g.Indexed) (hgold : g.resolve t = .ok gold) (honce : gold.UnaryOnce)
    (htags : tags.Ordered) (hnonneg : tags.NonNegative) (hbeta : beta ≤ 1) :
    Analysis g t.sentence (tags.withGold gold) beta gold := by
  obtain ⟨⟨stop, hresolves⟩, hstart⟩ := Grammar.resolve_eq_ok.mp hgold
  have hlicensed := hresolves.licenses hg
  have hspan : gold.span = ⟨0, t.sentence.length⟩ := by
    obtain ⟨hspan, rfl⟩ := hresolves.span_eq
    simp [hspan, BankTree.sentence, Sentence.length]
  have hleaves : gold.leaves.map Prod.snd = (List.range t.sentence.length).map Span.word := by
    rw [hlicensed.leaves_eq, hspan, List.range_eq_range']
    rfl
  refine ⟨hlicensed.mono fun leaf hleaf _ => ?_, honce, hleaves, hspan, hstart⟩
  obtain ⟨i, hi⟩ := List.mem_iff_getElem?.mp hleaf
  have hword : leaf.2 = .word i := by
    have hget : (gold.leaves.map Prod.snd)[i]? = some leaf.2 := by rw [List.getElem?_map, hi]; rfl
    rw [hleaves, List.getElem?_map, Option.map_eq_some_iff] at hget
    obtain ⟨j, hj, hj'⟩ := hget
    obtain ⟨_, rfl⟩ := List.getElem?_eq_some_iff.mp hj
    rw [List.getElem_range] at hj'
    exact hj'.symm
  rw [hword]
  exact Supertags.offers_withGold htags hnonneg hbeta hi

theorem Forest.exists_pack_of_build {gid maxItems : Nat} {categories : Array Category} {rules : List Rule}
    {markups : List (CatId × Markup)} {s : Sentence} {c : CoarseChart EReal}
    (hg : Grammar.ofRules gid categories rules markups = .ok g)
    (hc : CoarseChart.build g s tags beta maxItems = .ok c) (hgold : c.Packed gold) {m : Perceptron EReal}
    (hid : m.grammarId = g.id) (hm : ∀ x ∈ m.weights, x ≠ ⊥) :
    ∃ f, FineChart.build c m.toModel .all none = .ok f ∧ ∀ sentence (m' : Perceptron EReal),
      ∃ forest m'', (Forest.pack f sentence gold).run m' = (.ok (some forest), m'') := by
  have hindexed := Grammar.indexed_ofRules hg
  obtain ⟨rfl, rfl, hsat, hwhole⟩ := CoarseChart.build_ok hc
  have hanalysis := (hsat.packed_iff hindexed hwhole).mp hgold
  obtain ⟨f, hf⟩ := FineChart.exists_build c (m := m.toModel) hid .all none
  have hfinished := FineChart.finished_build hsat hindexed hf
  obtain ⟨_, hscore⟩ := hanalysis.licensed.exists_score hindexed (Grammar.terminal_ofRules hg)
    hanalysis.start m c.sentence
  exact ⟨f, hf, fun sentence m' => Forest.exists_pack hfinished hsat hindexed hwhole hm hgold
    (hfinished.sound.context_eq ▸ hscore) sentence m'⟩

end

namespace Trainer

section

variable {gid : Nat} {categories : Array Category} {rules : List Rule} {markups : List (CatId × Markup)}
  {t : BankTree} {gold : Derivation} {tags : Supertags EReal}

/-- A gold derivation that resolves is packed: under any beam there is a chart of its sentence, unless there
is no room for the items, and the chart with all edges kept gives a forest. -/
theorem exists_forest_of_resolve {g : Grammar} (hg : Grammar.ofRules gid categories rules markups = .ok g)
    (hgold : g.resolve t = .ok gold) (honce : gold.UnaryOnce) (htags : tags.Ordered)
    (hnonneg : tags.NonNegative) {beta : EReal} (hbeta : beta ≤ 1) {m : Perceptron EReal}
    (hid : m.grammarId = g.id) (hm : ∀ x ∈ m.weights, x ≠ ⊥) :
    ∃ c f, (∀ maxItems, CoarseChart.build g t.sentence (tags.withGold gold) beta maxItems =
        if c.items.size ≤ maxItems then .ok c else .error .abandoned) ∧
      FineChart.build c m.toModel .all none = .ok f ∧ ∀ sentence (m' : Perceptron EReal),
        ∃ forest m'', (Forest.pack f sentence gold).run m' = (.ok (some forest), m'') := by
  have hindexed := Grammar.indexed_ofRules hg
  have hanalysis := Grammar.analysis_of_resolve hindexed hgold honce htags hnonneg hbeta
  obtain ⟨c, hpacked, hbuild⟩ := CoarseChart.build_of_analysis hindexed hanalysis
  have hc := hbuild c.items.size
  rw [if_pos (Nat.le_refl _)] at hc
  obtain ⟨f, hf, hpack⟩ := Forest.exists_pack_of_build hg hc hpacked hid hm
  exact ⟨c, f, hbuild, hf, hpack⟩

end

end Trainer

namespace Sample

/-- The derivation of the two words as a treebank has it. -/
def dogsRunTree : BankTree :=
  .node clause 1 [.leaf np ⟨"dogs", "NNS", some "NP"⟩, .leaf verb ⟨"run", "VBP", some "S\\NP"⟩]

theorem resolve_dogsRunTree {g : Grammar} (hg : Grammar.ofRules 7 categories rules [] = .ok g)
    (hrules : g.rules = rules.toArray) : g.resolve dogsRunTree = .ok goldTree := by
  have hindexed := Grammar.indexed_ofRules hg
  have hlexical {i : Nat} (hi : i < 2) : g.lexicalRule? i = some i := by
    rw [hindexed.lexicalRule?, Grammar.idsWhere, hrules]
    obtain rfl | rfl : i = 0 ∨ i = 1 := by omega
    · rfl
    · rfl
  have hbinary : (g.binaryRules 0 1).find? (g.builds 2) = some 2 := by
    have hids : g.binaryRules 0 1 = [2] := by
      rw [hindexed.binaryRules, Grammar.idsWhere, hrules]
      rfl
    have hbuilds : g.builds 2 2 = true := by
      rw [Grammar.builds, Grammar.rule?, hrules]
      rfl
    rw [hids, List.find?_cons_of_pos hbuilds]
  have hstart : g.isStart 2 = true := by
    rw [Grammar.isStart, hindexed.topRule?, Grammar.idsWhere, hrules]
    rfl
  have hnp : g.Resolves (.leaf np ⟨"dogs", "NNS", some "NP"⟩) 0 (.leaf ⟨0, 0⟩ (.word 0)) 1 :=
    .leaf (Grammar.catIdOf?_ofRules hg rfl) (hlexical (by decide))
  have hverb : g.Resolves (.leaf verb ⟨"run", "VBP", some "S\\NP"⟩) 1 (.leaf ⟨1, 1⟩ (.word 1)) 2 :=
    .leaf (Grammar.catIdOf?_ofRules hg rfl) (hlexical (by decide))
  exact Grammar.resolve_eq_ok.mpr
    ⟨⟨2, .binary (Grammar.catIdOf?_ofRules hg rfl) hnp hverb hbinary⟩, hstart⟩

theorem exists_forest_of_resolve_dogs_run : ∃ g, ∃ m : Perceptron EReal,
    Grammar.ofRules 7 categories rules [] = .ok g ∧ g.resolve dogsRunTree = .ok goldTree ∧
    goldTree.UnaryOnce ∧ (Supertags.ofWords [[⟨2, (1 : EReal)⟩]]).Ordered ∧
    (Supertags.ofWords [[⟨2, (1 : EReal)⟩]]).NonNegative ∧ m.grammarId = g.id ∧ (∀ x ∈ m.weights, x ≠ ⊥) ∧
    ∃ c f, (∀ maxItems, CoarseChart.build g dogsRunTree.sentence
        ((Supertags.ofWords [[⟨2, 1⟩]]).withGold goldTree) 1 maxItems =
          if c.items.size ≤ maxItems then .ok c else .error .abandoned) ∧
      FineChart.build c m.toModel .all none = .ok f ∧ ∀ sentence (m' : Perceptron EReal),
        ∃ forest m'', (Forest.pack f sentence goldTree).run m' = (.ok (some forest), m'') := by
  obtain ⟨g, hg, _, hrules⟩ := exists_grammar
  let m : Perceptron EReal := .untrained g
  have hresolve := resolve_dogsRunTree hg hrules
  have honce : goldTree.UnaryOnce := .branch (by simp [Derivation.UnaryOnce.leaf]) (by simp)
  have hnonneg : (Supertags.ofWords [[⟨2, (1 : EReal)⟩]]).NonNegative := by
    intro word tag htag
    cases word with
    | zero =>
      obtain rfl : tag = ⟨2, 1⟩ := by simpa [Supertags.all, Supertags.ofWords, Supertags.sortTags] using htag
      exact zero_le_one
    | succ word => simp [Supertags.all, Supertags.ofWords] at htag
  have hordered := Supertags.ordered_ofWords [[⟨2, (1 : EReal)⟩]]
  have hm : ∀ x ∈ m.weights, x ≠ ⊥ := by simp [m, Perceptron.untrained]
  exact ⟨g, m, hg, hresolve, honce, hordered, hnonneg, rfl, hm,
    Trainer.exists_forest_of_resolve hg hresolve honce hordered hnonneg le_rfl rfl hm⟩

end Sample

end Categorial
