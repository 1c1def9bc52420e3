import Categorial.Proofs.Forest.Derivations
import Categorial.Proofs.Forest.Marks
import Categorial.Proofs.Forest.Trainable
import Categorial.Proofs.Model.Finite
set_option autoImplicit false

/-!
Gold derivations in packed forests. A model that refines phrases by their heads, as linear models do, makes the
steps of a chart's derivation the steps that a linear model takes it apart into. So the gold features of a forest
are those of one of its derivations, and the best one weighs no less.
-/

namespace Categorial

/-- The model tells phrases of a category apart by their heads, as linear models do. -/
structure Refiner.ByHeads (m : Refiner) : Prop where
  lexical : m.refineLexical = fun _ _ word => ⟨some word, none⟩
  unary : m.refineUnary = fun _ _ child => child.refinement
  binary : m.refineBinary = Context.childRefinement

theorem Refiner.ByHeads.walk_eq {α : Type} {m : Refiner} (h : m.ByHeads) (p : Perceptron α) (ctx : Context)
    (t : Derivation) : p.refiner.walk ctx t = m.walk ctx t :=
  walk_congr _ _ h.lexical.symm h.unary.symm h.binary.symm ctx t

theorem Expansion.length_features_le (access : Access) (ctx : Context) (rule : Rule) (e : Expansion)
    (symbols : Symbols) : ((e.features access ctx rule).run symbols).1.length ≤ 6 := by
  have hone {β : Type} (o : Option β) : o.toList.length ≤ 1 := by cases o <;> simp
  cases e with
  | lexical id site =>
    change (_ :: (_ : Option _).toList ++ (_ : Option _).toList).length ≤ 6
    grind
  | unary id parent child =>
    change (_ :: (_ : Option _).toList).length ≤ 6
    grind
  | binary id parent left right =>
    change (_ :: (_ : Option _).toList ++ (_ : Option _).toList ++ (_ : Option _).toList ++ (_ : Option _).toList ++
      [_]).length ≤ 6
    grind
  | top id root =>
    change (_ :: (_ : Option _).toList).length ≤ 6
    grind

namespace Forest

/-- No feature occurs so often among the steps of the gold derivation that its counter turns over. -/
def CountableGold {α : Type} (f : FineChart α) (p : Perceptron α) (gold : Derivation) : Prop :=
  ∀ steps lists, p.refiner.expansions f.context gold = .ok steps →
    List.Forall₂ (fun e indices => p.features f.context e = .ok indices) steps lists →
    ∀ feature, lists.flatten.count feature < 2 ^ 32

theorem countableGold_of_length {α : Type} {f : FineChart α} {p : Perceptron α} {gold : Derivation}
    {steps : List Expansion} (hsteps : p.refiner.expansions f.context gold = .ok steps)
    (hlength : 6 * steps.length < 2 ^ 32) : CountableGold f p gold := by
  intro steps' lists hsteps' hlists feature
  cases hsteps.symm.trans hsteps'
  refine Nat.lt_of_le_of_lt (Nat.le_trans List.count_le_length ?_) hlength
  clear hsteps hsteps' hlength
  induction hlists with
  | nil => exact Nat.le_refl 0
  | @cons e indices steps lists hindices _ ih =>
    obtain ⟨rule, -, h⟩ := except_bind_eq_ok.mp hindices
    cases h
    have hle := Nat.le_trans (List.length_filterMap_le p.table.get? _)
      (e.length_features_le .known f.context rule p.table.symbols)
    rw [List.flatten_cons, List.length_append, List.length_cons, Perceptron.lookup]
    omega

/-- A derivation of a chart with its edges in the forest, its steps and their features. -/
structure Trace where
  tree : Derivation
  edges : List ForestEdge
  steps : List Expansion
  lists : List (List Nat)

section

variable {α : Type} {f : FineChart α} {m : Model α} {p : Perceptron α} {forest : Forest}

structure Trace.Of (r : Trace) (forest : Forest) (f : FineChart α) (m : Model α) (p : Perceptron α) (i : FineId) :
    Prop where
  derives : forest.Derives i r.edges
  walk : m.walk f.context r.tree = .ok (f.siteOf i, r.steps)
  features : List.Forall₂ (fun e indices => p.features f.context e = .ok indices) r.steps r.lists
  perm : (featuresOf r.edges).Perm r.lists.flatten

theorem exists_traces {children : List FineId} {ts : List Derivation}
    (h : List.Forall₂ (fun child t => ∃ r : Trace, r.tree = t ∧ r.Of forest f m p child) children ts) :
    ∃ traces : List Trace, List.Forall₂ (fun child r => r.Of forest f m p child) children traces ∧
      traces.map Trace.tree = ts := by
  induction h with
  | nil => exact ⟨[], .nil, rfl⟩
  | cons ht _ ih =>
    obtain ⟨traces, htraces, rfl⟩ := ih
    obtain ⟨r, rfl, hr⟩ := ht
    exact ⟨r :: traces, .cons hr htraces, rfl⟩

theorem featuresOf_perm_traces {children : List FineId} {traces : List Trace}
    (h : List.Forall₂ (fun child r => r.Of forest f m p child) children traces) :
    (featuresOf (traces.map Trace.edges).flatten).Perm (traces.map Trace.lists).flatten.flatten := by
  induction h with
  | nil => exact .refl _
  | cons hr _ ih =>
    simp only [featuresOf, List.map_cons, List.flatten_cons, List.flatMap_append, List.flatten_append] at ih ⊢
    exact hr.perm.append ih

end

section

variable {α : Type} [Scalar α] {c : CoarseChart α} {tags : Supertags α} {m : Model α} {retain : Retain}
  {f : FineChart α} {p : Perceptron α} {forest : Forest}
  (hs : FineChart.Sound c m retain ((FineChart.cellsOf c (spansOf c.sentence.length)).map Prod.fst) f)
  (hc : c.Saturated tags) (hg : c.grammar.Indexed) (hforest : forest.Packs f p)

include hs hforest

theorem Packs.wellFormed (hroots : f.roots = f.findRoots m) : forest.WellFormed where
  edges := by
    intro node hnode
    obtain ⟨x, hx, hedges⟩ := mem_left_of_forall₂ hforest.nodes hnode
    obtain ⟨i, hi⟩ := List.mem_iff_getElem?.mp hx
    obtain ⟨_, _, hmade⟩ := hs.made i x (by simpa [FineChart.item?] using hi)
    obtain ⟨_, _, hfirst, _⟩ := hmade.exists_first
    rintro rfl
    cases hfirst.symm.trans (List.forall₂_nil_right_iff.mp hedges)
  children := by
    intro i node hnode packed hpacked child hchild
    obtain ⟨x, hx, hedges⟩ := getElem?_left_of_forall₂ hforest.nodes hnode
    obtain ⟨e, he, hof⟩ := mem_left_of_forall₂ hedges hpacked
    rw [hof.children_eq] at hchild
    exact hs.below (i := i) (by simpa [FineChart.item?] using hx) he child hchild
  roots := by
    intro packed hpacked
    obtain ⟨r, hr, hof⟩ := mem_left_of_forall₂ hforest.roots hpacked
    obtain ⟨_, _, x, _, _, hx, _⟩ := hs.root_of_mem hroots hr
    obtain ⟨node, hnode, _⟩ := hforest.node_of hx.1
    rw [hof.node_eq]
    exact (List.getElem?_eq_some_iff.mp hnode).1

include hc hg

theorem Packs.exists_trace (i : FineId) : ∀ {t : Derivation}, f.Derives i t →
    ∃ r : Trace, r.tree = t ∧ r.Of forest f m p i := by
  -- children have smaller numbers than their item
  induction i using Nat.strong_induction_on with
  | _ i ih =>
    intro t ht
    obtain @⟨_, x, e, ts, hx, he, hts⟩ := ht
    obtain ⟨node, hnode, hedges⟩ := hforest.node_of hx
    obtain ⟨packed, hpacked, hof⟩ := mem_right_of_forall₂ hedges he
    obtain ⟨span, source, ps, hspan, hmem, hmade⟩ := hs.exists_source hx
    obtain ⟨hbuilt, hbelow⟩ := hmade.built_of_mem he
    obtain ⟨traces, htraces, rfl⟩ :=
      exists_traces (forall₂_imp_of_mem hts fun child hchild t ht => ih child (hbelow child hchild) ht)
    refine ⟨⟨_, packed :: (traces.map Trace.edges).flatten,
      (traces.map Trace.steps).flatten ++ [f.expansionOf x.site e.step],
      (traces.map Trace.lists).flatten ++ [packed.features]⟩, rfl, ?_, ?_, ?_, ?_⟩
    · refine .node hnode hpacked ?_
      rw [hof.children_eq]
      exact List.forall₂_map_right_iff.mpr (htraces.imp fun _ _ hr => hr.derives)
    · rw [FineChart.siteOf_eq hx]
      exact walk_node Trace.tree Trace.steps hbuilt
        (fun _ _ hstep => hc.word_eq hg hspan hmem (hbuilt.lexical_mem hstep)) (htraces.imp fun _ _ hr => hr.walk)
    · refine List.rel_append (List.rel_flatten (List.forall₂_map_left_iff.mpr (List.forall₂_map_right_iff.mpr
        (List.forall₂_same.mpr fun r hr => ?_)))) (.cons hof.features .nil)
      obtain ⟨_, _, hr⟩ := mem_left_of_forall₂ htraces hr
      exact hr.features
    · rw [List.flatten_append, List.flatten_singleton]
      exact ((featuresOf_perm_traces htraces).append_left packed.features).trans List.perm_append_comm

theorem Packs.exists_gold_derivation (hroots : f.roots = f.findRoots m) (hheads : m.ByHeads) {gold : Derivation}
    (hcounts : forest.CountsGold f p gold) (hcountable : CountableGold f p gold) {r : Root α} (hr : r ∈ f.roots)
    (hgold : f.Derives r.item gold) :
    ∃ packed ∈ forest.roots, ∃ edges, forest.Derives packed.node edges ∧ ∃ keys,
      forest.gold = (Tally.ofList keys).toList ∧ (rootFeatures packed edges).Perm keys ∧
        ∀ feature, keys.count feature < 2 ^ 32 := by
  obtain ⟨packed, hpacked, hof⟩ := mem_right_of_forall₂ hforest.roots hr
  obtain ⟨trace, htree, htrace⟩ := hforest.exists_trace hs hc hg r.item hgold
  obtain ⟨id, item, x, hitem, hrule, hx, _⟩ := hs.root_of_mem hroots hr
  have htop : f.context.grammar.topRule? (f.siteOf r.item).cat = some r.rule := by
    rw [FineChart.siteOf_eq hx.1, (hs.site_eq hx.1 (hx.2 ▸ hitem)).1]
    simpa only [FineChart.context, hs.coarse_eq] using hrule
  have hexpansions : p.refiner.expansions f.context gold =
      .ok (trace.steps ++ [.top r.rule (f.siteOf r.item)]) := by
    rw [Refiner.expansions, hheads.walk_eq, ← htree, htrace.walk]
    simp only [bind, Except.bind, htop]
    rfl
  obtain ⟨steps, lists, hsteps, hlists, hcounted⟩ := hcounts
  cases hexpansions.symm.trans hsteps
  have hall : List.Forall₂ (fun e indices => p.features f.context e = .ok indices)
      (trace.steps ++ [.top r.rule (f.siteOf r.item)]) (trace.lists ++ [packed.features]) :=
    List.rel_append htrace.features (.cons hof.features .nil)
  have heq : lists = trace.lists ++ [packed.features] := by
    have := mapM_of_forall₂ hlists
    rw [mapM_of_forall₂ hall] at this
    exact (Except.ok.inj this).symm
  refine ⟨packed, hpacked, trace.edges, hof.node_eq ▸ htrace.derives, _, hcounted, ?_,
    hcountable _ _ hsteps hlists⟩
  rw [heq, List.flatten_append, List.flatten_singleton]
  exact (htrace.perm.append_left packed.features).trans List.perm_append_comm

end

/-- A forest has a best derivation exactly if it has a root; no derivation weighs more, over all its edges and its
root. Its counts are those of one of the derivations that weigh most, modulo `2 ^ 32`, and if none of them has turned
over, it scores what they weigh. If the forest was packed under a model that refines phrases by their heads, and the
gold derivation is one of the chart's and its features can be counted, the gold derivation scores no more than the best
one under any weights, also after features have been renumbered or dropped. -/
theorem best?_optimal :
    (∀ f : Forest, f.WellFormed → ∀ weights : Array EReal,
      ((f.best? weights).isSome = true ↔ f.roots ≠ []) ∧
      ∀ p, f.best? weights = some p →
        IsGreatest {x | ∃ r ∈ f.roots, ∃ edges, f.Derives r.node edges ∧
          x = weigh weights r.features + (edges.map fun e => weigh weights e.features).sum} p.score ∧
        ∃ r ∈ f.roots, ∃ edges, f.Derives r.node edges ∧ p.score = weigh weights (rootFeatures r edges) ∧
          (∀ feature n, (feature, n) ∈ p.counts ↔ feature ∈ rootFeatures r edges ∧
            n = (rootFeatures r edges).count feature % 2 ^ 32) ∧
          ((∀ feature, (rootFeatures r edges).count feature < 2 ^ 32) →
            p.score = (p.counts.map fun (feature, n) => (n : EReal) * weightOf weights feature).sum)) ∧
    ∀ {gid : Nat} {categories : Array Category} {rules : List Rule} {markups : List (CatId × Markup)}
      {g : Grammar}, Grammar.ofRules gid categories rules markups = .ok g →
      ∀ {s : Sentence} {tags : Supertags EReal} {beta : EReal} {maxItems : Nat} {c : CoarseChart EReal},
      CoarseChart.build g s tags beta maxItems = .ok c →
      ∀ {m : Model EReal}, m.ByHeads → ∀ {retain : Retain} {beam : Option EReal} {f : FineChart EReal},
      FineChart.build c m retain beam = .ok f →
      ∀ {sentence : Nat} {gold : Derivation} {p p' : Perceptron EReal} {forest : Forest},
      (pack f sentence gold).run p = (.ok (some forest), p') → (∃ r ∈ f.roots, f.Derives r.item gold) →
      CountableGold f p' gold → ∀ weights : Array EReal,
        (∃ pred, forest.best? weights = some pred ∧ forest.goldScore weights ≤ pred.score) ∧
        ∀ numbers : Renumbering, ∃ pred, (forest.renumber numbers).best? weights = some pred ∧
          (forest.renumber numbers).goldScore weights ≤ pred.score := by
  constructor
  · intro f hf weights
    rcases eq_or_ne f.roots [] with hroots | hroots
    · simp [best?_eq_none hroots, hroots]
    · obtain ⟨p, hp⟩ := hf.exists_predicted weights hroots
      refine ⟨by simp [hp.best_eq, hroots], fun p' hp' => ?_⟩
      cases hp.best_eq.symm.trans hp'
      obtain ⟨r, hr, edges, hedges, hscore, hcounts⟩ := hp.attained
      refine ⟨⟨⟨r, hr, edges, hedges, ?_⟩, ?_⟩, r, hr, edges, hedges, hscore, fun feature n => ?_, fun hsmall => ?_⟩
      · rw [hscore, weigh_rootFeatures]
      · rintro _ ⟨r', hr', edges', hedges', rfl⟩
        rw [← weigh_rootFeatures]
        exact hp.le r' hr' edges' hedges'
      · rw [hcounts]
        exact (Tally.counts_ofList _).mem_iff (feature, n)
      · rw [hscore, hcounts, weigh_eq_sum]
        exact (Tally.sum_ofList (weightOf weights) hsmall).symm
  · intro gid categories rules markups g hg s tags beta maxItems c hc m hheads retain beam f hf sentence gold p p'
      forest hpack hgold hcountable weights
    obtain ⟨rfl, rfl, hsat, _⟩ := CoarseChart.build_ok hc
    have hindexed := Grammar.indexed_ofRules hg
    have hsound := FineChart.sound_build hsat hf
    have hroots : f.roots = f.findRoots m := congrArg FineChart.roots (FineChart.build_ok hf)
    obtain ⟨hpacks, hcounts⟩ := (packs_of_pack hpack).2.2 p' (.refl p')
    obtain ⟨r, hr, hderives⟩ := hgold
    obtain ⟨packed, hpacked, edges, hedges, keys, hkeys, hperm, hsmall⟩ :=
      hpacks.exists_gold_derivation hsound hsat hindexed hroots hheads hcounts hcountable hr hderives
    have hle : ∀ weights : Array EReal, ∃ pred, forest.best? weights = some pred ∧
        forest.goldScore weights ≤ pred.score := by
      intro weights
      obtain ⟨pred, hpred⟩ := (hpacks.wellFormed hsound hroots).exists_predicted weights
        (List.ne_nil_of_mem hpacked)
      refine ⟨pred, hpred.best_eq, ?_⟩
      rw [goldScore_eq_weigh hkeys hsmall, ← weigh_perm hperm]
      exact hpred.le packed hpacked edges hedges
    exact ⟨hle weights, fun numbers => goldScore_le_renumber hle numbers weights⟩

end Forest

namespace Sample

theorem expansions_goldTree {g : Grammar} (hg : g.Indexed) (hrules : g.rules = rules.toArray) (p : Perceptron EReal) :
    p.refiner.expansions ⟨g, dogsRun⟩ goldTree = .ok
      [.lexical 0 ⟨0, ⟨0, 1⟩, ⟨some 0, none⟩⟩, .lexical 1 ⟨1, ⟨1, 2⟩, ⟨some 1, none⟩⟩,
        .binary 2 ⟨2, ⟨0, 2⟩, ⟨some 1, none⟩⟩ ⟨0, ⟨0, 1⟩, ⟨some 0, none⟩⟩ ⟨1, ⟨1, 2⟩, ⟨some 1, none⟩⟩,
        .top 3 ⟨2, ⟨0, 2⟩, ⟨some 1, none⟩⟩] := by
  have htop : g.topRule? 2 = some 3 := by
    rw [hg.topRule?, Grammar.idsWhere, hrules]
    rfl
  have hrule (id : RuleId) : g.rule? id = rules.toArray[id]? := by rw [Grammar.rule?, hrules]
  simp [goldTree, Refiner.expansions, Refiner.walk, Perceptron.refiner, Context.childRefinement, hrule,
    htop, rules, headRefinement, bind, Except.bind, Rule.headSide?, RuleType.headSide?]

theorem countableGold_goldTree {g : Grammar} (hg : g.Indexed) (hrules : g.rules = rules.toArray)
    {f : FineChart EReal} (hcontext : f.context = ⟨g, dogsRun⟩) (p : Perceptron EReal) :
    Forest.CountableGold f p goldTree :=
  Forest.countableGold_of_length (hcontext ▸ expansions_goldTree hg hrules p) (by decide)

theorem best?_optimal_dogs_run : ∃ g c f forest, ∃ p later : Perceptron EReal,
    Grammar.ofRules 7 categories rules [] = .ok g ∧ CoarseChart.build g dogsRun tags 1 10 = .ok c ∧
    p.toModel.ByHeads ∧ FineChart.build c p.toModel .all none = .ok f ∧
    (Forest.pack f 0 goldTree).run p = (.ok (some forest), later) ∧
    (∃ r ∈ f.roots, f.Derives r.item goldTree) ∧ Forest.CountableGold f later goldTree ∧ forest.WellFormed ∧
    ∀ weights : Array EReal,
      ((forest.best? weights).isSome = true ↔ forest.roots ≠ []) ∧
      (∃ pred, forest.best? weights = some pred ∧ forest.goldScore weights ≤ pred.score) ∧
      ∀ numbers : Forest.Renumbering, ∃ pred, (forest.renumber numbers).best? weights = some pred ∧
        (forest.renumber numbers).goldScore weights ≤ pred.score := by
  obtain ⟨g, hg, _, hrules⟩ := exists_grammar
  have hindexed := Grammar.indexed_ofRules hg
  have hc := build_eq hindexed hrules
  let p : Perceptron EReal := .untrained g
  have hp : ∀ x ∈ p.weights, x ≠ ⊥ := by simp [p, Perceptron.untrained]
  have hheads : p.toModel.ByHeads := ⟨rfl, rfl, rfl⟩
  obtain ⟨f, hf⟩ := FineChart.exists_build (chart g) (m := p.toModel) rfl .all none
  obtain ⟨_, _, hsat, hwhole⟩ := CoarseChart.build_ok hc
  have hfinished := FineChart.finished_build hsat hindexed hf
  have hpacked := packed_goldTree hindexed hrules
  have hanalysis := (hsat.packed_iff hindexed hwhole).mp hpacked
  obtain ⟨z, hz⟩ := hanalysis.licensed.exists_score hindexed (Grammar.terminal_ofRules hg)
    hanalysis.start p dogsRun
  have hscore : p.toModel.scoreDerivation f.context goldTree = .ok z := hfinished.sound.context_eq ▸ hz
  obtain ⟨forest, later, hpack⟩ :=
    Forest.exists_pack hfinished hsat hindexed hwhole hp hpacked hscore 0 p
  obtain ⟨r, hr, _, _, hunder, _⟩ := hfinished.exists_root_ge hsat hindexed (by decide) hwhole hpacked hscore
    (Perceptron.scoreDerivation_ne_bot hp hscore)
  have hgold : ∃ r ∈ f.roots, f.Derives r.item goldTree :=
    ⟨r, hr, FineChart.derives_of_under hfinished hsat hindexed r.item hunder⟩
  have hformed : forest.WellFormed :=
    ((Forest.packs_of_pack hpack).2.2 later (.refl later)).1.wellFormed hfinished.sound hfinished.roots_eq
  have hcountable := countableGold_goldTree hindexed hrules hfinished.sound.context_eq later
  exact ⟨g, chart g, f, forest, p, later, hg, hc, hheads, hf, hpack, hgold, hcountable, hformed, fun weights =>
    ⟨(Forest.best?_optimal.1 forest hformed weights).1,
      Forest.best?_optimal.2 hg hc hheads hf hpack hgold hcountable weights⟩⟩

end Sample

theorem Model.ScoresIn.scoreSteps {α : Type} [Scalar α] {m : Model α} {ctx : Context} {S : α → Prop}
    (h : m.ScoresIn ctx S) (hboth : ∀ x y, S x → S y → S (Scalar.both x y)) :
    ∀ {es : List Expansion} {total z : α}, S total → m.scoreSteps ctx total es = .ok z → S z := by
  intro es
  induction es with
  | nil =>
    intro total z htotal hz
    cases hz
    exact htotal
  | cons e es ih =>
    intro total z htotal hz
    obtain ⟨x, hx, hz⟩ := except_bind_eq_ok.mp hz
    exact ih (hboth _ _ htotal (h e x hx)) hz

/-- The model tells no phrases of a category apart. -/
structure Refiner.Headless (m : Refiner) : Prop where
  lexical : ∀ ctx cat word, m.refineLexical ctx cat word = .none
  unary : ∀ ctx rule child, child.refinement = .none → m.refineUnary ctx rule child = .none
  binary : ∀ ctx rule left right, left.refinement = .none → right.refinement = .none →
    m.refineBinary ctx rule left right = .none

theorem GenerativeModel.headless_baseline {α : Type} [Scalar α] (g : Grammar) :
    ((untrained g .baseline false).toModel : Model α).Headless where
  lexical _ _ _ := rfl
  unary _ _ _ h := h
  binary ctx rule left right hl hr := by
    change ctx.childRefinement rule left right = .none
    unfold Context.childRefinement
    split
    · unfold headRefinement
      split <;> assumption
    · rfl

section

variable {α : Type} [Scalar α] {c : CoarseChart α} {tags : Supertags α} {m : Model α} {retain : Retain}
  {f : FineChart α}
  (hs : FineChart.Sound c m retain ((FineChart.cellsOf c (spansOf c.sentence.length)).map Prod.fst) f)

include hs

theorem FineChart.Sound.refinement_eq_none (hm : m.Headless) (i : FineId) : ∀ {x : FineItem α},
    f.item? i = some x → x.site.refinement = .none := by
  induction i using Nat.strong_induction_on with
  | _ i ih =>
    intro x hx
    obtain ⟨_, _, hmade⟩ := hs.made i x hx
    obtain ⟨e, _, hedges, _⟩ := hmade.exists_first
    have he : e ∈ x.edges := by simp [hedges]
    obtain ⟨hbuilt, hbelow⟩ := hmade.built_of_mem he
    generalize x.site = site at hbuilt
    cases hbuilt with
    | lexical _ hsite => exact hsite ▸ hm.lexical _ _ _
    | unary _ hchild hsite =>
      exact hsite ▸ hm.unary _ _ _ (ih _ (hbelow _ (by simp [FineStep.children])) hchild.1)
    | binary _ hl hr hsite =>
      exact hsite ▸ hm.binary _ _ _ _ (ih _ (hbelow _ (by simp [FineStep.children])) hl.1)
        (ih _ (hbelow _ (by simp [FineStep.children])) hr.1)

end

def Avoids (key : Feature) (x : Finding (List Feature)) : Prop := ∀ symbols, key ∉ (x.run symbols).1

theorem avoids_bind {β : Type} {key : Feature} {x : Finding β} {f : β → Finding (List Feature)}
    (h : ∀ a, Avoids key (f a)) : Avoids key (x >>= f) := fun symbols => h (x.run symbols).1 (x.run symbols).2

theorem avoids_pure {key : Feature} {keys : List Feature} (h : key ∉ keys) : Avoids key (pure keys) := fun _ => h

theorem Expansion.avoids_rootWord (ctx : Context) (rule : Rule) {e : Expansion}
    (h : ∀ id root, e = .top id root → root.refinement = .none) (cat : CatId) (word : Nat) :
    Avoids (.rootWord cat word) (e.features .known ctx rule) := by
  cases e with
  | lexical => exact avoids_bind fun _ => avoids_bind fun _ => avoids_pure (by simp)
  | unary => exact avoids_bind fun _ => avoids_pure (by simp)
  | binary =>
    exact avoids_bind fun _ => avoids_bind fun _ => avoids_bind fun _ => avoids_bind fun _ =>
      avoids_pure (by simp [Option.bind_eq_some_iff])
  | top id root =>
    have hnone : ctx.word? root.refinement.head = none := by rw [h id root rfl]; rfl
    rw [features, hnone]
    exact avoids_pure (by simp)

namespace Forest

theorem rootWord_not_mem {α : Type} [Scalar α] {c : CoarseChart α} {m : Model α} {retain : Retain}
    {f : FineChart α}
    (hs : FineChart.Sound c m retain ((FineChart.cellsOf c (spansOf c.sentence.length)).map Prod.fst) f)
    (hm : m.Headless) {p : Perceptron α} (hp : p.table.Consistent) {forest : Forest}
    (hforest : forest.Packs f p) {cat : CatId} {word i : Nat}
    (hi : p.table.get? (.rootWord cat word) = some i) :
    (∀ node ∈ forest.nodes, ∀ e ∈ node, i ∉ e.features) ∧ ∀ r ∈ forest.roots, i ∉ r.features := by
  have hfeatures : ∀ {e indices}, (∀ id root, e = Expansion.top id root → root.refinement = .none) →
      p.features f.context e = .ok indices → i ∉ indices := by
    intro e indices he hindices hmem
    obtain ⟨rule, -, h⟩ := except_bind_eq_ok.mp hindices
    cases h
    obtain ⟨key, hkey, hget⟩ := List.mem_filterMap.mp hmem
    have hsame : key = .rootWord cat word :=
      Option.some.inj (((hp.keys _ _).mp hget).symm.trans ((hp.keys _ _).mp hi))
    exact e.avoids_rootWord f.context rule he cat word p.table.symbols (hsame ▸ hkey)
  constructor
  · intro node hnode packed hpacked
    obtain ⟨x, _, hedges⟩ := mem_left_of_forall₂ hforest.nodes hnode
    obtain ⟨e, _, hof⟩ := mem_left_of_forall₂ hedges hpacked
    refine hfeatures (fun id root h => ?_) hof.features
    cases hstep : e.step <;> simp [FineChart.expansionOf, hstep] at h
  · intro packed hpacked
    obtain ⟨r, _, hof⟩ := mem_left_of_forall₂ hforest.roots hpacked
    refine hfeatures (fun id root h => ?_) hof.features
    cases h
    cases hx : f.item? r.item with
    | none => rw [FineChart.siteOf, hx]; rfl
    | some x =>
      rw [FineChart.siteOf_eq hx]
      exact hs.refinement_eq_none hm r.item hx

end Forest

namespace Forest

theorem Derives.mem_nodes {f : Forest} (hf : f.WellFormed) (i : Nat) : ∀ {edges : List ForestEdge},
    f.Derives i edges → ∀ e ∈ edges, ∃ node ∈ f.nodes, e ∈ node := by
  induction i using Nat.strong_induction_on with
  | _ i ih =>
    intro edges h e he
    cases h with
    | @node _ node e' parts hnode he' hparts =>
      rcases List.mem_cons.mp he with rfl | he
      · exact ⟨node, List.mem_of_getElem? hnode, he'⟩
      · obtain ⟨part, hpart, he⟩ := List.mem_flatten.mp he
        obtain ⟨child, hchild, hderives⟩ := mem_left_of_forall₂ hparts hpart
        exact ih child (hf.children hnode e' he' child hchild) hderives e he

/-- With the weight one for a feature that the forest does not have and the gold derivation does, the gold
derivation scores more than the best one. -/
theorem best?_lt_goldScore {f : Forest} (hf : f.WellFormed) (hroots : f.roots ≠ [])
    (hedges : ∀ node ∈ f.nodes, ∀ e ∈ node, 0 ∉ e.features) (hrootFeatures : ∀ r ∈ f.roots, 0 ∉ r.features)
    {keys : List Nat} (hgold : f.gold = (Tally.ofList keys).toList) (hkeys : 0 ∈ keys)
    (hsmall : ∀ feature, keys.count feature < 2 ^ 32) :
    ∃ pred, f.best? #[(1 : EReal)] = some pred ∧ pred.score < f.goldScore #[(1 : EReal)] := by
  have hzero : ∀ i, i ≠ 0 → weightOf #[(1 : EReal)] i = 0 := by
    intro i hi
    simp [weightOf, hi]
  have hone : weightOf #[(1 : EReal)] 0 = 1 := by simp [weightOf]
  obtain ⟨pred, hpred⟩ := hf.exists_predicted #[(1 : EReal)] hroots
  refine ⟨pred, hpred.best_eq, ?_⟩
  obtain ⟨r, hr, edges, hderives, hscore, -⟩ := hpred.attained
  have hnone : ∀ i ∈ rootFeatures r edges, i ≠ 0 := by
    rintro i hi rfl
    rcases List.mem_append.mp hi with hi | hi
    · exact hrootFeatures r hr hi
    · obtain ⟨e, he, hi⟩ := List.mem_flatMap.mp hi
      obtain ⟨node, hnode, hmem⟩ := hderives.mem_nodes hf r.node e he
      exact hedges node hnode e hmem hi
  have hbest : pred.score = 0 := by
    rw [hscore, weigh_eq_sum]
    refine List.sum_eq_zero fun x hx => ?_
    obtain ⟨i, hi, rfl⟩ := List.mem_map.mp hx
    exact hzero i (hnone i hi)
  have hle : (1 : EReal) ≤ f.goldScore #[(1 : EReal)] := by
    rw [goldScore_eq_weigh hgold hsmall, weigh_eq_sum]
    have hnonneg : ∀ x ∈ keys.map (weightOf #[(1 : EReal)]), 0 ≤ x := by
      intro x hx
      obtain ⟨i, _, rfl⟩ := List.mem_map.mp hx
      rcases eq_or_ne i 0 with rfl | hi
      · rw [hone]
        exact zero_le_one
      · rw [hzero i hi]
    calc (1 : EReal) = weightOf #[(1 : EReal)] 0 := hone.symm
      _ ≤ (keys.map (weightOf #[(1 : EReal)])).sum := List.single_le_sum hnonneg _ (List.mem_map_of_mem hkeys)
  rw [hbest]
  exact lt_of_lt_of_le zero_lt_one hle

end Forest

namespace Sample

noncomputable def knowing (g : Grammar) : Perceptron EReal where
  grammarId := g.id
  table := (FeatureTable.register { FeatureTable.empty with symbols := (Symbols.empty.intern "run").2 }
    (.rootWord 2 0)).2
  weights := #[]

theorem knowing_spec (g : Grammar) : (knowing g).table.Consistent ∧
    (knowing g).table.get? (.rootWord 2 0) = some 0 ∧ (knowing g).table.symbols.get? "run" = some 0 := by
  let t : FeatureTable := { FeatureTable.empty with symbols := (Symbols.empty.intern "run").2 }
  have ht : t.Consistent := ⟨.empty, rfl, Symbols.Consistent.intern (s := Symbols.empty) Positions.empty "run"⟩
  have hnone : t.get? (.rootWord 2 0) = none := by simp [t, FeatureTable.get?, FeatureTable.empty]
  have hregister : t.register (.rootWord 2 0) = (some 0, (t.insert (.rootWord 2 0)).bump 0) := by
    rw [FeatureTable.register, hnone]
    rfl
  have htable : (knowing g).table = (t.register (.rootWord 2 0)).2 := rfl
  refine ⟨htable ▸ ht.register _, ?_, ?_⟩
  · rw [htable, hregister]
    exact Std.HashMap.getElem?_insert_self
  · rw [htable, hregister]
    have hintern : Symbols.empty.intern "run" = (0, (Symbols.empty.intern "run").2) := by
      simp [Symbols.intern, Symbols.empty, Symbols.size]
    have := (Symbols.intern_spec Symbols.empty "run").2
    rw [hintern] at this
    exact this

theorem mem_features_goldTree {g : Grammar} (hg : g.Indexed) (hrules : g.rules = rules.toArray)
    {p : Perceptron EReal} (hfeature : p.table.get? (.rootWord 2 0) = some 0)
    (hword : p.table.symbols.get? "run" = some 0) {steps : List Expansion} {lists : List (List Nat)}
    (hsteps : p.refiner.expansions ⟨g, dogsRun⟩ goldTree = .ok steps)
    (hlists : List.Forall₂ (fun e indices => p.features ⟨g, dogsRun⟩ e = .ok indices) steps lists) :
    0 ∈ lists.flatten := by
  have hmem : Expansion.top 3 ⟨2, ⟨0, 2⟩, ⟨some 1, none⟩⟩ ∈ steps := by
    rw [expansions_goldTree hg hrules] at hsteps
    cases hsteps
    simp
  obtain ⟨indices, hindices, hfeatures⟩ := mem_right_of_forall₂ hlists hmem
  refine List.mem_flatten.mpr ⟨indices, hindices, ?_⟩
  obtain ⟨rule, -, h⟩ := except_bind_eq_ok.mp hfeatures
  cases h
  have hkeys : ((Expansion.top 3 ⟨2, ⟨0, 2⟩, ⟨some 1, none⟩⟩).features .known ⟨g, dogsRun⟩ rule |>.run
      p.table.symbols).1 = .root 2 :: ((p.table.symbols.get? "run").map (Feature.rootWord 2)).toList := rfl
  exact List.mem_filterMap.mpr ⟨.rootWord 2 0, by rw [hkeys, hword]; simp, hfeature⟩

theorem exists_headless : ∃ g c f forest, ∃ later : Perceptron EReal,
    Grammar.ofRules 7 categories rules [] = .ok g ∧ CoarseChart.build g dogsRun tags 1 10 = .ok c ∧
    FineChart.build c (GenerativeModel.untrained g .baseline false).toModel .all none = .ok f ∧
    (Forest.pack f 0 goldTree).run (knowing g) = (.ok (some forest), later) ∧
    (∃ r ∈ f.roots, f.Derives r.item goldTree) ∧
    ∃ pred, forest.best? #[(1 : EReal)] = some pred ∧ pred.score < forest.goldScore #[(1 : EReal)] := by
  obtain ⟨g, hg, _, hrules⟩ := exists_grammar
  have hindexed := Grammar.indexed_ofRules hg
  have hterminal := Grammar.terminal_ofRules hg
  have hc := build_eq hindexed hrules
  let m := GenerativeModel.untrained g .baseline false
  obtain ⟨f, hf⟩ := FineChart.exists_build (chart g) (m := m.toModel) rfl .all none
  obtain ⟨_, _, hsat, hwhole⟩ := CoarseChart.build_ok hc
  have hfinished := FineChart.finished_build hsat hindexed hf
  have hpacked := packed_goldTree hindexed hrules
  have hanalysis := (hsat.packed_iff hindexed hwhole).mp hpacked
  have hgold : ∃ r ∈ f.roots, f.Derives r.item goldTree := by
    obtain ⟨z, hz⟩ := hanalysis.licensed.exists_score_of_check hindexed hterminal hanalysis.start
      (m := (m.toModel : Model EReal)) (s := dogsRun) fun e r hr => ⟨_, GenerativeModel.score_of_check hr⟩
    obtain ⟨steps, _, hsteps⟩ := except_bind_eq_ok.mp hz
    obtain ⟨q, hq⟩ := ((GenerativeModel.counted_untrained g .baseline false).scoresIn ⟨g, dogsRun⟩).scoreSteps
      (fun _ _ => ExactScalar.Finite.both) ExactScalar.finite_zero hsteps
    have hne : z ≠ ⊥ := hq ▸ EReal.coe_ne_bot q
    obtain ⟨r, hr, _, _, hunder, _⟩ := hfinished.exists_root_ge hsat hindexed (by decide) hwhole hpacked
      (hfinished.sound.context_eq ▸ hz) hne
    exact ⟨r, hr, FineChart.derives_of_under hfinished hsat hindexed r.item hunder⟩
  obtain ⟨forest, later, hpack⟩ := (Forest.pack_of_licensed hfinished.sound hfinished.roots_eq hsat hindexed
    hterminal hanalysis.licensed 0 (knowing g)).1.mpr (by
      obtain ⟨r, hr, hderives⟩ := hgold
      exact ⟨r, hr, _, hderives, .refl _⟩)
  obtain ⟨hgrows, _, hpacks⟩ := Forest.packs_of_pack hpack
  obtain ⟨hforest, steps, lists, hsteps, hlists, hcounts⟩ := hpacks later (.refl later)
  have hsmall := countableGold_goldTree hindexed hrules hfinished.sound.context_eq later steps lists hsteps hlists
  rw [hfinished.sound.context_eq] at hsteps hlists
  obtain ⟨hconsistent, hfeature, hword⟩ := knowing_spec g
  have hfeature' := hgrows.table.get? _ _ hfeature
  have hlater : later.table.Consistent := by
    have h := (Forest.registers_pack f 0 goldTree (knowing g)).consistent hconsistent
    rwa [hpack] at h
  obtain ⟨hedges, hroots⟩ := Forest.rootWord_not_mem hfinished.sound (GenerativeModel.headless_baseline g) hlater
    hforest hfeature'
  exact ⟨g, chart g, f, forest, later, hg, hc, hf, hpack, hgold,
    Forest.best?_lt_goldScore (hforest.wellFormed hfinished.sound hfinished.roots_eq) hforest.spans hedges hroots
      hcounts (mem_features_goldTree hindexed hrules hfeature' (hgrows.table.symbols _ _ hword) hsteps hlists) hsmall⟩

end Sample

namespace Forest

/-- Every node is built of the one before it, twice, and the first one has the feature. -/
def doubling (n : Nat) : Forest where
  sentence := 0
  nodes := [⟨[], [0], false⟩] :: (List.range n).map fun i => [⟨[i, i], [], false⟩]
  roots := [⟨n, [], false⟩]
  gold := []

theorem getElem?_nodes_doubling {n i : Nat} {node : ForestNode} (h : (doubling n).nodes[i]? = some node) :
    i = 0 ∧ node = [⟨[], [0], false⟩] ∨ ∃ j, i = j + 1 ∧ node = [⟨[j, j], [], false⟩] := by
  cases i with
  | zero => exact .inl ⟨rfl, (Option.some.inj h).symm⟩
  | succ j =>
    simp only [doubling, List.getElem?_cons_succ, List.getElem?_map, Option.map_eq_some_iff] at h
    obtain ⟨k, hk, rfl⟩ := h
    obtain ⟨-, rfl⟩ := List.getElem?_eq_some_iff.mp hk
    exact .inr ⟨j, rfl, by simp⟩

theorem wellFormed_doubling (n : Nat) : (doubling n).WellFormed where
  edges := by
    intro node hnode
    obtain ⟨i, hi⟩ := List.mem_iff_getElem?.mp hnode
    rcases getElem?_nodes_doubling hi with ⟨-, rfl⟩ | ⟨_, -, rfl⟩ <;> exact List.cons_ne_nil _ _
  children := by
    intro i node hnode e he child hchild
    rcases getElem?_nodes_doubling hnode with ⟨-, rfl⟩ | ⟨j, rfl, rfl⟩
    · obtain rfl := List.mem_singleton.mp he
      cases hchild
    · obtain rfl := List.mem_singleton.mp he
      have hj : child = j := by simpa using hchild
      exact hj ▸ Nat.lt_succ_self j
  roots := by simp [doubling]

theorem featuresOf_doubling (n i : Nat) : ∀ {edges : List ForestEdge}, (doubling n).Derives i edges →
    featuresOf edges = List.replicate (2 ^ i) 0 := by
  induction i with
  | zero =>
    intro edges h
    obtain @⟨_, node, e, parts, hnode, he, hparts⟩ := h
    rcases getElem?_nodes_doubling hnode with ⟨-, rfl⟩ | ⟨_, hi, -⟩
    · obtain rfl := List.mem_singleton.mp he
      cases hparts
      rfl
    · cases hi
  | succ i ih =>
    intro edges h
    obtain @⟨_, node, e, parts, hnode, he, hparts⟩ := h
    rcases getElem?_nodes_doubling hnode with ⟨hi, -⟩ | ⟨j, hi, rfl⟩
    · cases hi
    · obtain rfl : i = j := Nat.succ.inj hi
      obtain rfl := List.mem_singleton.mp he
      obtain ⟨left, _, hleft, hrest, rfl⟩ := List.forall₂_cons_left_iff.mp hparts
      obtain ⟨right, _, hright, hnil, rfl⟩ := List.forall₂_cons_left_iff.mp hrest
      cases hnil
      have hfeatures : featuresOf (⟨[i, i], [], false⟩ :: [left, right].flatten) =
          featuresOf left ++ featuresOf right := by
        simp [featuresOf]
      rw [hfeatures, ih hleft, ih hright, List.replicate_append_replicate, Nat.pow_succ, Nat.mul_two]

theorem best?_doubling : ∃ pred, (doubling 32).best? #[(1 : EReal)] = some pred ∧ pred.counts = [(0, 0)] ∧
    pred.score ≠ (pred.counts.map fun (feature, n) => (n : EReal) * weightOf #[(1 : EReal)] feature).sum := by
  obtain ⟨pred, hpred⟩ := (wellFormed_doubling 32).exists_predicted #[(1 : EReal)] (List.cons_ne_nil _ _)
  obtain ⟨r, hr, edges, hedges, hscore, hcounts⟩ := hpred.attained
  obtain rfl := List.mem_singleton.mp hr
  have hfeatures : rootFeatures ⟨32, [], false⟩ edges = List.replicate (2 ^ 32) 0 := featuresOf_doubling 32 32 hedges
  rw [hfeatures] at hscore hcounts
  rw [Tally.ofList_replicate (by decide)] at hcounts
  have hone : weightOf #[(1 : EReal)] 0 = 1 := by simp [weightOf]
  have hweigh : pred.score = ((2 ^ 32 : Nat) : EReal) := by
    rw [hscore, weigh_eq_sum, List.map_replicate, List.sum_replicate, hone, EReal.nsmul_eq_mul, mul_one]
  refine ⟨pred, hpred.best_eq, hcounts, ?_⟩
  rw [hweigh, hcounts]
  simp [Tally.toList]

end Forest

namespace Sample

theorem best?_not_optimal :
    (∃ g c f forest, ∃ later : Perceptron EReal,
      Grammar.ofRules 7 categories rules [] = .ok g ∧ CoarseChart.build g dogsRun tags 1 10 = .ok c ∧
      FineChart.build c (GenerativeModel.untrained g .baseline false).toModel .all none = .ok f ∧
      (Forest.pack f 0 goldTree).run (knowing g) = (.ok (some forest), later) ∧
      (∃ r ∈ f.roots, f.Derives r.item goldTree) ∧
      ∃ pred, forest.best? #[(1 : EReal)] = some pred ∧ pred.score < forest.goldScore #[(1 : EReal)]) ∧
    (Forest.doubling 32).WellFormed ∧ ∃ pred, (Forest.doubling 32).best? #[(1 : EReal)] = some pred ∧
      pred.score ≠ (pred.counts.map fun (feature, n) => (n : EReal) * weightOf #[(1 : EReal)] feature).sum := by
  obtain ⟨pred, hbest, -, hne⟩ := Forest.best?_doubling
  exact ⟨exists_headless, Forest.wellFormed_doubling 32, pred, hbest, hne⟩

end Sample

end Categorial
