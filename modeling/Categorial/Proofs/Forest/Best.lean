import Categorial.Proofs.Forest.Choices
set_option autoImplicit false

/-!
The best derivation of a packed forest. Under any later weights it scores what the best derivation of a chart
does that is filled anew with these weights, and its features are those of one of the chart's derivations.
-/

namespace Categorial

theorem firstBest?_spec {β : Type} (score : β → EReal) {xs : List β} (hne : xs ≠ []) :
    ∃ x ∈ xs, firstBest? score xs = some (x, score x) ∧ ∀ y ∈ xs, score y ≤ score x := by
  induction xs using List.reverseRecOn with
  | nil => exact absurd rfl hne
  | append_singleton xs x ih =>
    rw [firstBest?_append_singleton]
    rcases eq_or_ne xs [] with rfl | hxs
    · exact ⟨x, by simp, rfl, by simp⟩
    · obtain ⟨y, hy, hfirst, hbest⟩ := ih hxs
      rw [hfirst]
      by_cases hlt : score y < score x
      · refine ⟨x, by simp, by simp [hlt], fun z hz => ?_⟩
        rcases List.mem_append.mp hz with hz | hz
        · exact (hbest z hz).trans hlt.le
        · rw [List.mem_singleton.mp hz]
      · refine ⟨y, by simp [hy], by simp [hlt], fun z hz => ?_⟩
        rcases List.mem_append.mp hz with hz | hz
        · exact hbest z hz
        · rw [List.mem_singleton.mp hz]
          exact not_lt.mp hlt

theorem le_of_firstBest? {β : Type} {score : β → EReal} {xs : List β} {x : β} {top : EReal}
    (h : firstBest? score xs = some (x, top)) : ∀ y ∈ xs, score y ≤ top := by
  intro y hy
  obtain ⟨_, _, hfirst, hmax⟩ := firstBest?_spec score (List.ne_nil_of_mem hy)
  cases h.symm.trans hfirst
  exact hmax y hy

namespace Forest

/-- The best score of a derivation under an item, and one that has it. -/
structure Tops (f : FineChart EReal) (p : Perceptron EReal) (i : FineId) (t : Derivation) (top : EReal) :
    Prop where
  under : f.Under p.toModel i t top
  le : ∀ t' y, f.Under p.toModel i t' y → y ≤ top

theorem score_of_picks {picks : Picks EReal} {children : List Nat} {picked : List (Pick EReal)}
    (h : List.Forall₂ (fun child q => picks.pick? child = some q) children picked) : ∀ y : EReal,
    children.foldl (fun x c => Scalar.both x (picks.score c)) y = y + (picked.map Pick.score).sum := by
  induction h with
  | nil => simp
  | @cons child q _ _ hq _ ih =>
    intro y
    have hscore : picks.score child = q.score := by rw [Picks.score, hq, Option.elim_some]
    rw [List.foldl_cons, ih, ExactScalar.both_eq, hscore, List.map_cons, List.sum_cons, add_assoc]

theorem sum_le_of_tops {f : FineChart EReal} {p : Perceptron EReal} {children : List Nat}
    {parses tops : List (Parse EReal)}
    (hparses : List.Forall₂ (fun child q => f.Under p.toModel child q.tree q.score) children parses)
    (htops : List.Forall₂ (fun child r => Tops f p child r.tree r.score) children tops) :
    (parses.map Parse.score).sum ≤ (tops.map Parse.score).sum := by
  induction hparses generalizing tops with
  | nil =>
    cases htops
    exact le_refl _
  | cons hparse _ ih =>
    cases htops with
    | cons hr hrest =>
      rw [List.map_cons, List.map_cons, List.sum_cons, List.sum_cons]
      exact add_le_add (hr.le _ _ hparse) (ih hrest)

section

variable {c : CoarseChart EReal} {tags : Supertags EReal} {m p : Perceptron EReal} {f : FineChart EReal}
  (hf : FineChart.Finished c m.toModel .all f) (hc : c.Saturated tags) (hg : c.grammar.Indexed)
  {i : FineId} {x : FineItem EReal}

include hf hc hg

theorem edge_tops (hx : f.item? i = some x) {e : FineEdge EReal} (he : e ∈ x.edges)
    {packed : ForestEdge} (hpacked : EdgeOf f p x.site e packed) {picks : Picks EReal}
    {chosen : List (Choice EReal)}
    (hpicks : List.Forall₂ (fun child r => picks.pick? child = some r.pick) e.step.children chosen)
    (htops : List.Forall₂ (fun child r => Tops f p child r.tree r.pick.score) e.step.children chosen) :
    f.Under p.toModel i (e.step.node x.site (chosen.map Choice.tree)) (packed.score p.weights picks) ∧
    ∀ (z : EReal) (parses : List (Parse EReal)),
      p.toModel.score f.context (f.expansionOf x.site e.step) = .ok z →
      List.Forall₂ (fun child q => f.Under p.toModel child q.tree q.score) e.step.children parses →
      z + (parses.map Parse.score).sum ≤ packed.score p.weights picks := by
  let tops : List (Parse EReal) := chosen.map fun r => ⟨r.tree, r.pick.score⟩
  have htops : List.Forall₂ (fun child r => Tops f p child r.tree r.score) e.step.children tops :=
    List.forall₂_map_right_iff.mpr htops
  obtain ⟨z, hz, hunder⟩ := FineChart.under_edge hf hc hg hx he p (htops.imp fun _ _ hr => hr.under)
  have hscore : packed.score p.weights picks = z + (tops.map Parse.score).sum := by
    rw [ForestEdge.score, hpacked.children_eq, Perceptron.score_eq_weigh hz hpacked.features,
      score_of_picks (List.forall₂_map_right_iff.mpr hpicks), List.map_map, List.map_map]
    rfl
  constructor
  · rw [hscore]
    rwa [List.map_map] at hunder
  · intro z' parses hz' hparses
    cases hz.symm.trans hz'
    rw [hscore]
    exact add_le_add_right (sum_le_of_tops hparses htops) _

variable {forest : Forest} (hforest : forest.Packs f p)

include hforest

theorem Packs.tops (i : FineId) : ∀ {x : FineItem EReal} {q : Pick EReal} {t : Derivation},
    f.item? i = some x → (forest.picks p.weights).pick? i = some q →
    (forest.trees f p.weights)[i]?.join = some t → Tops f p i t q.score := by
  -- children have smaller numbers than their item
  induction i using Nat.strong_induction_on with
  | _ i ih =>
    intro x q t hx hpick htree
    obtain ⟨node, e, packed, chosen, hbest⟩ := hforest.exists_bestStep hf.sound hc hg p.weights hx
    cases hpick.symm.trans hbest.pick_eq
    cases htree.symm.trans hbest.treeAt_eq
    have htops : ∀ {e : FineEdge EReal}, e ∈ x.edges → ∀ {chosen : List (Choice EReal)},
        List.Forall₂ (fun child r => (forest.picks p.weights).pick? child = some r.pick ∧
          (forest.trees f p.weights)[child]?.join = some r.tree ∧ r.Of f m.toModel p child)
          e.step.children chosen →
        List.Forall₂ (fun child r => Tops f p child r.tree r.pick.score) e.step.children chosen := by
      intro e he chosen hchosen
      refine forall₂_imp_of_mem hchosen fun child hchild r hr => ?_
      obtain ⟨y, hy⟩ := hr.2.2.derives.exists_item
      exact ih child (hf.sound.below hx he child hchild) hy hr.1 hr.2.1
    have he := (List.of_mem_zip hbest.mem).1
    refine ⟨(edge_tops hf hc hg hx he hbest.edgeOf (hbest.children.imp fun _ _ hr => hr.1)
      (htops he hbest.children)).1, fun t' y ht' => ?_⟩
    obtain ⟨e', he', z, parses, hz, hparses, rfl⟩ := FineChart.edge_of_under hf hc hg hx ht'
    obtain ⟨node', hnode', hedges⟩ := hforest.node_of hx
    cases hbest.node_eq.symm.trans hnode'
    obtain ⟨packed', hmem', hpacked'⟩ := mem_right_of_forall₂ hedges he'
    have hchildren : ∀ child ∈ e'.step.children, ∃ y, f.item? child = some y := by
      obtain ⟨_, _, _, _, _, hmade⟩ := hf.sound.exists_source hx
      exact fun child hchild => (hmade.built_of_mem he').1.exists_child hchild
    obtain ⟨chosen', hchosen'⟩ := exists_forall₂ fun child hchild => by
      obtain ⟨y, hy⟩ := hchildren child hchild
      exact hforest.exists_choice hf.sound hc hg p.weights child hy
    have hle := (edge_tops hf hc hg hx he' hpacked' (hchosen'.imp fun _ _ hr => hr.1)
      (htops he' hchosen')).2 z parses hz hparses
    exact hle.trans (le_of_firstBest? hbest.first packed' hmem')

theorem Packs.root_tops {r : Root EReal} (hr : r ∈ f.roots) {packed : ForestRoot}
    (hpacked : RootOf f p r packed) {q : Pick EReal} {t : Derivation}
    (hpick : (forest.picks p.weights).pick? r.item = some q)
    (htree : (forest.trees f p.weights)[r.item]?.join = some t) : c.Packed t ∧
      p.toModel.scoreDerivation f.context t = .ok (rootScore p.weights (packed, q)) ∧
      ∀ t y, f.Under p.toModel r.item t y → ∀ z, p.toModel.scoreDerivation f.context t = .ok z →
        z ≤ rootScore p.weights (packed, q) := by
  obtain ⟨_, _, x, _, _, hx, hlocal, _, _⟩ := hf.mem_roots.mp hr
  have htops := hforest.tops hf hc hg r.item hx.1 hpick htree
  obtain ⟨z, hz⟩ := Perceptron.exists_score hlocal p
  have hfeatures := hpacked.features
  rw [FineChart.siteOf_eq hx.1] at hfeatures
  have hscore : rootScore p.weights (packed, q) = z + q.score := by
    rw [rootScore, ExactScalar.both_eq, Perceptron.score_eq_weigh hz hfeatures]
  obtain ⟨hpackedTree, hderivation⟩ := hf.sound.packed_of_top hf.roots_eq hr hx.1 htops.under hz
  refine ⟨hpackedTree, hscore ▸ hderivation, fun t' y ht z' hz' => ?_⟩
  have hderivation' := (hf.sound.packed_of_top hf.roots_eq hr hx.1 ht hz).2
  cases hz'.symm.trans hderivation'
  rw [hscore]
  exact add_le_add_right (htops.le t' y ht) z

theorem Packs.best?_spec (hwhole : c.wholeSpan.Within c.sentence.length)
    (hm : ∀ x ∈ m.weights, x ≠ ⊥) : ∃ pred, forest.best? p.weights = some pred ∧
      (∃ t steps lists, c.Packed t ∧ p.toModel.scoreDerivation f.context t = .ok pred.score ∧
        p.refiner.expansions f.context t = .ok steps ∧
        List.Forall₂ (fun e indices => p.features f.context e = .ok indices) steps lists ∧
        pred.counts = (Tally.ofList lists.flatten).toList) ∧
      ∀ t, c.Packed t → ∀ z, p.toModel.scoreDerivation f.context t = .ok z → z ≤ pred.score := by
  obtain ⟨r, packed, chosen, hpredicts⟩ := hforest.exists_predicts hf.sound hc hg p.weights hf.roots_eq
  have hof : RootOf f p r packed := (List.forall₂_iff_zip.mp hforest.roots).2 hpredicts.mem
  obtain ⟨hpackedTree, hderivation, _⟩ := hforest.root_tops hf hc hg (List.of_mem_zip hpredicts.mem).1 hof
    hpredicts.pick_eq hpredicts.treeAt_eq
  refine ⟨_, hpredicts.best_eq, ⟨chosen.tree, _, _, hpackedTree, hderivation, ?_, hpredicts.features, rfl⟩, ?_⟩
  · rw [p.expansions_eq m]
    exact hpredicts.expansions
  · intro t ht z hz
    -- under the old weights the derivation is possible too, so it has a root
    obtain ⟨_, hold⟩ := Perceptron.exists_scoreDerivation hz m
    obtain ⟨r', hr', _, y'', hunder, _⟩ := hf.exists_root_ge hc hg (by decide) hwhole ht hold
      (Perceptron.scoreDerivation_ne_bot hm hold)
    obtain ⟨w, hunder'⟩ := hunder.rescore p
    obtain ⟨packed', hpacked', hof'⟩ := mem_right_of_forall₂ hforest.roots hr'
    obtain ⟨_, _, _, _, _, hx, _⟩ := hf.mem_roots.mp hr'
    obtain ⟨chosen', hpick', htree', _⟩ := hforest.exists_choice hf.sound hc hg p.weights r'.item hx.1
    have hle := (hforest.root_tops hf hc hg hr' hof' hpick' htree').2.2 t w hunder' z hz
    refine hle.trans (le_of_firstBest? hpredicts.first _ (mem_candidates.mpr ⟨hpacked', ?_⟩))
    rw [hof'.node_eq]
    exact hpick'

end

/-- A forest that is packed once stands for the chart under all later weights: its best derivation scores what
the best derivation of the chart does that is filled anew, and has the features that are then looked up for a
derivation of the chart with this score. -/
theorem best?_agrees_reparse {g : Grammar} {s : Sentence} {tags : Supertags EReal} {beta : EReal}
    {maxItems gid : Nat} {categories : Array Category} {rules : List Rule}
    {markups : List (CatId × Markup)} {c : CoarseChart EReal}
    (hg : Grammar.ofRules gid categories rules markups = .ok g)
    (hc : CoarseChart.build g s tags beta maxItems = .ok c)
    {m : Perceptron EReal} (hm : ∀ x ∈ m.weights, x ≠ ⊥ ∧ x ≠ ⊤) (hopen : m.table.frozen = false)
    {f : FineChart EReal} (hf : FineChart.build c m.toModel .all none = .ok f)
    {sentence : Nat} {gold : Derivation} {forest : Forest} {m' : Perceptron EReal}
    (hpack : (pack f sentence gold).run m = (.ok (some forest), m'))
    {later p : Perceptron EReal} {weights : Array EReal} (hlater : m'.Later later)
    (hweights : ∀ x ∈ weights, x ≠ ⊥ ∧ x ≠ ⊤) (hset : later.setWeights weights = .ok p)
    {retain : Retain} (hretain : retain ≠ .kBest 0) :
    ∃ f' parse pred, FineChart.build c p.toModel retain none = .ok f' ∧ f'.viterbi? = some parse ∧
      forest.best? weights = some pred ∧ pred.score = parse.score ∧
      ∃ t steps lists, c.Packed t ∧ p.toModel.scoreDerivation ⟨g, s⟩ t = .ok pred.score ∧
        p.refiner.expansions ⟨g, s⟩ t = .ok steps ∧ steps.mapM (p.features ⟨g, s⟩) = .ok lists ∧
        pred.counts = (Tally.ofList lists.flatten).toList := by
  obtain ⟨rfl, rfl, hsat, hwhole⟩ := CoarseChart.build_ok hc
  have hindexed := Grammar.indexed_ofRules hg
  have hfinished := FineChart.finished_build hsat hindexed hf
  obtain ⟨hgrown, hfrozen, hpacks⟩ := packs_of_pack hpack
  obtain ⟨hlater', rfl⟩ := Perceptron.later_of_setWeights hset
  have hp := hlater.trans hlater'
  obtain ⟨pred, hpred, ⟨t, steps, lists, ht, hscore, hsteps, hlists, hcounts⟩, hbest⟩ :=
    (hpacks p (hp.grows (hfrozen.trans hopen))).1.best?_spec hfinished hsat hindexed hwhole fun x hx => (hm x hx).1
  rw [hfinished.sound.context_eq] at hscore hsteps hlists hbest
  obtain ⟨f', hf'⟩ : ∃ f', FineChart.build c p.toModel retain none = .ok f' := by
    obtain ⟨_, hcheck, _⟩ := except_bind_eq_ok.mp hf
    have hid : p.toModel.grammarId = m.toModel.grammarId := (hgrown.later.trans hp).grammarId_eq
    rw [FineChart.build, hid, hcheck]
    exact ⟨_, rfl⟩
  have hfinished' := FineChart.finished_build hsat hindexed hf'
  obtain ⟨hnone, hsome⟩ := hfinished'.viterbi?_spec hsat hindexed hretain hwhole
  rw [hfinished'.sound.context_eq] at hnone hsome
  have hpossible : pred.score ≠ ⊥ := Perceptron.scoreDerivation_ne_bot (fun x hx => (hweights x hx).1) hscore
  cases hviterbi : f'.viterbi? with
  | none => exact absurd (hnone.mp hviterbi t ht _ hscore) hpossible
  | some parse =>
    obtain ⟨hpacked, hderivation, hmax⟩ := hsome parse hviterbi
    refine ⟨f', parse, pred, hf', hviterbi, hpred, ?_, t, steps, lists, ht, hscore, hsteps, ?_, hcounts⟩
    · exact le_antisymm (hmax t ht _ hscore) (hbest _ hpacked _ hderivation)
    · exact mapM_of_forall₂ hlists

end Forest

namespace Sample

theorem best?_agrees_reparse_dogs_run : ∃ g c f forest, ∃ m later p : Perceptron EReal,
    Grammar.ofRules 7 categories rules [] = .ok g ∧ CoarseChart.build g dogsRun tags 1 10 = .ok c ∧
    (∀ x ∈ m.weights, x ≠ ⊥ ∧ x ≠ ⊤) ∧ m.table.frozen = false ∧
    FineChart.build c m.toModel .all none = .ok f ∧
    (Forest.pack f 0 goldTree).run m = (.ok (some forest), later) ∧
    later.setWeights (Array.replicate later.table.size 1) = .ok p ∧
    ∃ f' parse pred, FineChart.build c p.toModel .best none = .ok f' ∧ f'.viterbi? = some parse ∧
      forest.best? (Array.replicate later.table.size 1) = some pred ∧ pred.score = parse.score ∧
      ∃ t steps lists, c.Packed t ∧ p.toModel.scoreDerivation ⟨g, dogsRun⟩ t = .ok pred.score ∧
        p.refiner.expansions ⟨g, dogsRun⟩ t = .ok steps ∧
        steps.mapM (p.features ⟨g, dogsRun⟩) = .ok lists ∧
        pred.counts = (Tally.ofList lists.flatten).toList := by
  obtain ⟨g, hg, _, hrules⟩ := exists_grammar
  have hindexed := Grammar.indexed_ofRules hg
  have hc := build_eq hindexed hrules
  let m : Perceptron EReal := .untrained g
  have hm : ∀ x ∈ m.weights, x ≠ ⊥ ∧ x ≠ ⊤ := by simp [m, Perceptron.untrained]
  obtain ⟨f, hf⟩ := FineChart.exists_build (chart g) (m := m.toModel) rfl .all none
  obtain ⟨_, _, hsat, hwhole⟩ := CoarseChart.build_ok hc
  have hfinished := FineChart.finished_build hsat hindexed hf
  have hpacked := packed_goldTree hindexed hrules
  have hanalysis := (hsat.packed_iff hindexed hwhole).mp hpacked
  obtain ⟨_, hscore⟩ := hanalysis.licensed.exists_score hindexed (Grammar.terminal_ofRules hg)
    hanalysis.start m dogsRun
  obtain ⟨forest, later, hpack⟩ := Forest.exists_pack hfinished hsat hindexed hwhole
    (fun x hx => (hm x hx).1) hpacked
    (hfinished.sound.context_eq ▸ hscore) 0 m
  have hset : later.setWeights (Array.replicate later.table.size 1) =
      .ok { later with weights := Array.replicate later.table.size 1 } := by
    simp [Perceptron.setWeights]
  have hweights : ∀ x ∈ Array.replicate later.table.size (1 : EReal), x ≠ ⊥ ∧ x ≠ ⊤ := by
    intro x hx
    obtain ⟨_, rfl⟩ := Array.mem_replicate.mp hx
    exact ⟨by decide, by decide⟩
  exact ⟨g, chart g, f, forest, m, later, _, hg, hc, hm, rfl, hf, hpack, hset,
    Forest.best?_agrees_reparse hg hc hm rfl hf hpack (.refl later) hweights hset (by decide)⟩

end Sample

end Categorial
