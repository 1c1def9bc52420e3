import Categorial.Proofs.Forest.Choices
set_option autoImplicit false

/-!
What it means that a prediction is marked correct. Its derivation then has the root and only steps of the gold
derivation. If no phrase of the gold derivation comes back over the same span and category, its steps go
together in one way only, and the prediction is the gold derivation; a unary step that keeps or restores a
category can be left out unnoticed.
-/

namespace Categorial

namespace Derivation

def parts : Derivation → List Derivation
  | leaf _ _ => []
  | branch _ _ ts => ts

def key (t : Derivation) : StepKey := ⟨t.span, t.step.cat, t.step.rule, t.parts.map span⟩

theorem stepKeys_eq (t : Derivation) : t.stepKeys = t.key :: stepKeysOf t.parts := by cases t <;> rfl

theorem key_mem (t : Derivation) : t.key ∈ t.stepKeys := by simp [stepKeys_eq]

theorem stepKeys_subset {t part : Derivation} (h : part ∈ t.parts) {k : StepKey} (hk : k ∈ part.stepKeys) :
    k ∈ t.stepKeys := by
  rw [stepKeys_eq]
  exact List.mem_cons_of_mem _ (mem_stepKeysOf.mpr ⟨part, h, hk⟩)

/-- No two phrases have the same span and category: no unary steps come back to a category. -/
def Unrepeated (t : Derivation) : Prop := (t.stepKeys.map fun k => (k.span, k.cat)).Nodup

instance (t : Derivation) : Decidable t.Unrepeated :=
  inferInstanceAs (Decidable (t.stepKeys.map fun k => (k.span, k.cat)).Nodup)

theorem Unrepeated.eq_of_mem {t : Derivation} (h : t.Unrepeated) {k k' : StepKey} (hk : k ∈ t.stepKeys)
    (hk' : k' ∈ t.stepKeys) (hspan : k.span = k'.span) (hcat : k.cat = k'.cat) : k = k' :=
  List.inj_on_of_nodup_map h hk hk' (by rw [hspan, hcat])

end Derivation

namespace Grammar

variable {g : Grammar}

theorem UnaryRule.child_unique {id : RuleId} {child child' result result' : CatId}
    (h : g.UnaryRule id child result) (h' : g.UnaryRule id child' result') : child = child' := by
  obtain ⟨r, hr, _, hp, _⟩ := h
  obtain ⟨r', hr', _, hp', _⟩ := h'
  cases hr.symm.trans hr'
  exact Production.unary.inj (hp.symm.trans hp')

theorem BinaryRule.children_unique {id : RuleId} {left left' right right' result result' : CatId}
    (h : g.BinaryRule id left right result) (h' : g.BinaryRule id left' right' result') :
    left = left' ∧ right = right' := by
  obtain ⟨r, hr, hp, _⟩ := h
  obtain ⟨r', hr', hp', _⟩ := h'
  cases hr.symm.trans hr'
  exact Production.binary.inj (hp.symm.trans hp')

/-- Where a span and a category tell a step, its rule tells the categories of the children and the step their
spans; so steps go together in one way only. -/
theorem Licenses.eq_of_stepKeys {allowed allowed' : Nat → CatId → Prop} {gold : Derivation}
    (hgold : gold.Unrepeated) {u : Derivation} (hu : g.Licenses allowed u) :
    ∀ {t : Derivation}, g.Licenses allowed' t → t.span = u.span → t.step.cat = u.step.cat →
      (∀ k ∈ t.stepKeys, k ∈ gold.stepKeys) → (∀ k ∈ u.stepKeys, k ∈ gold.stepKeys) → t = u := by
  induction hu with
  | leaf =>
    intro t ht hspan hcat htkeys hukeys
    have hkey := hgold.eq_of_mem (htkeys _ t.key_mem) (hukeys _ (Derivation.key_mem _)) hspan hcat
    cases ht with
    | leaf =>
      simp only [Derivation.key, StepKey.mk.injEq, Derivation.span, Derivation.step] at hkey
      obtain ⟨hword, rfl, rfl, _⟩ := hkey
      rw [hword]
    | unary => simp [Derivation.key, Derivation.parts] at hkey
    | binary => simp [Derivation.key, Derivation.parts] at hkey
  | @unary u _ _ _ hrule ih =>
    intro t ht hspan hcat htkeys hukeys
    have hkey := hgold.eq_of_mem (htkeys _ t.key_mem) (hukeys _ (Derivation.key_mem _)) hspan hcat
    cases ht with
    | leaf => simp [Derivation.key, Derivation.parts] at hkey
    | @unary t _ _ ht hrule' =>
      simp only [Derivation.key, StepKey.mk.injEq, Derivation.span_branch, Derivation.step_branch] at hkey
      obtain ⟨hspan, rfl, rfl, _⟩ := hkey
      obtain rfl := ih ht hspan (hrule'.child_unique hrule)
        (fun k hk => htkeys k (Derivation.stepKeys_subset (List.mem_singleton_self t) hk))
        (fun k hk => hukeys k (Derivation.stepKeys_subset (List.mem_singleton_self u) hk))
      rfl
    | binary => simp [Derivation.key, Derivation.parts] at hkey
  | @binary left right _ _ _ _ _ hrule ihl ihr =>
    intro t ht hspan hcat htkeys hukeys
    have hkey := hgold.eq_of_mem (htkeys _ t.key_mem) (hukeys _ (Derivation.key_mem _)) hspan hcat
    cases ht with
    | leaf => simp [Derivation.key, Derivation.parts] at hkey
    | unary => simp [Derivation.key, Derivation.parts] at hkey
    | @binary left' right' _ _ hl hr _ hrule' =>
      simp only [Derivation.key, StepKey.mk.injEq, Derivation.span_branch, Derivation.step_branch,
        Derivation.parts, List.map_cons, List.map_nil, List.cons.injEq] at hkey
      obtain ⟨_, rfl, rfl, hspanl, hspanr, _⟩ := hkey
      obtain ⟨hcatl, hcatr⟩ := hrule'.children_unique hrule
      obtain rfl := ihl hl hspanl hcatl
        (fun k hk => htkeys k (Derivation.stepKeys_subset (by simp [Derivation.parts]) hk))
        (fun k hk => hukeys k (Derivation.stepKeys_subset (by simp [Derivation.parts]) hk))
      obtain rfl := ihr hr hspanr hcatr
        (fun k hk => htkeys k (Derivation.stepKeys_subset (by simp [Derivation.parts]) hk))
        (fun k hk => hukeys k (Derivation.stepKeys_subset (by simp [Derivation.parts]) hk))
      rfl

end Grammar

theorem Derivation.Recombines.eq {g : Grammar} {allowed allowed' : Nat → CatId → Prop} {t gold : Derivation}
    (h : t.Recombines gold) (ht : g.Licenses allowed t) (hgold : g.Licenses allowed' gold)
    (hunrepeated : gold.Unrepeated) : t = gold :=
  hgold.eq_of_stepKeys hunrepeated ht h.span_eq h.cat_eq h.stepKeys fun _ hk => hk

namespace Forest

variable {α : Type} [Scalar α] {forest : Forest} {f : FineChart α} {gold : Derivation}

section

variable {c : CoarseChart α} {tags : Supertags α} {m : Model α} {retain : Retain} {p : Perceptron α}
  (hs : FineChart.Sound c m retain ((FineChart.cellsOf c (spansOf c.sentence.length)).map Prod.fst) f)
  (hroots : f.roots = f.findRoots m) (hc : c.Saturated tags) (hg : c.grammar.Indexed)

include hs hc hg

theorem GoldMarks.correct_iff (hmarks : forest.GoldMarks f gold) (hforest : forest.Packs f p)
    (weights : Array α) (i : FineId) : ∀ {x : FineItem α} {q : Pick α} {t : Derivation}, f.item? i = some x →
    (forest.picks weights).pick? i = some q → (forest.trees f weights)[i]?.join = some t →
    (q.correct = true ↔ ∀ k ∈ t.stepKeys, k ∈ gold.stepKeys) := by
  have hbelow : ∀ i x, f.item? i = some x → ∀ e ∈ x.edges, ∀ child ∈ e.step.children, child < i :=
    fun _ _ hx _ he => hs.below hx he
  induction i using Nat.strong_induction_on with
  | _ i ih =>
    intro x q t hx hpick htree
    obtain ⟨node, e, packed, chosen, hbest⟩ := hforest.exists_bestStep hs hc hg weights hx
    have he := (List.of_mem_zip hbest.mem).1
    cases hpick.symm.trans hbest.pick_eq
    cases htree.symm.trans hbest.treeAt_eq
    have hmarked : Marked f gold.stepKeys forest.nodes.toArray x.site e packed := by
      obtain ⟨node', hnode', hedges⟩ := hmarks.nodes.node i x hx
      rw [List.getElem?_toArray] at hnode'
      cases hbest.node_eq.symm.trans hnode'
      exact (List.forall₂_iff_zip.mp hedges).2 hbest.mem
    have hcorrect : (packed.pick (forest.picks weights) (packed.score weights (forest.picks weights))).correct =
        (packed.gold && (chosen.map Choice.pick).all Pick.correct) := by
      rw [ForestEdge.pick, hbest.picks_eq]
    have hchosen : List.Forall₂ (fun child r => f.Derives child r.tree ∧
        (r.pick.correct = true ↔ ∀ k ∈ r.tree.stepKeys, k ∈ gold.stepKeys)) e.step.children chosen := by
      refine forall₂_imp_of_mem hbest.children fun child hchild r hr => ⟨hr.2.2.derives, ?_⟩
      obtain ⟨y, hy⟩ := hr.2.2.derives.exists_item
      exact ih child (hbelow i x hx e he child hchild) hy hr.1 hr.2.1
    rw [hcorrect, FineChart.stepKeys_edge hbest.derives, Bool.and_eq_true, hmarked, Bool.and_eq_true,
      List.contains_iff_mem, List.forall_mem_cons, List.all_eq_true, List.all_eq_true]
    constructor
    · rintro ⟨⟨hkey, _⟩, hall⟩
      refine ⟨hkey, fun k hk => ?_⟩
      obtain ⟨_, ht, hk⟩ := Derivation.mem_stepKeysOf.mp hk
      obtain ⟨r, hr, rfl⟩ := List.mem_map.mp ht
      obtain ⟨_, _, _, hcorrect⟩ := mem_left_of_forall₂ hchosen hr
      exact hcorrect.mp (hall _ (List.mem_map_of_mem hr)) k hk
    · rintro ⟨hkey, hkeys⟩
      have hparts : ∀ r ∈ chosen, ∀ k ∈ r.tree.stepKeys, k ∈ gold.stepKeys := fun r hr k hk =>
        hkeys k (Derivation.mem_stepKeysOf.mpr ⟨_, List.mem_map_of_mem hr, hk⟩)
      refine ⟨⟨hkey, fun child hchild => ?_⟩, fun _ hq => ?_⟩
      · obtain ⟨r, hr, hderives, _⟩ := mem_right_of_forall₂ hchosen hchild
        exact (hmarks.nodes.isGold_iff hbelow child).mpr ⟨r.tree, hderives, hparts r hr⟩
      · obtain ⟨r, hr, rfl⟩ := List.mem_map.mp hq
        obtain ⟨_, _, _, hcorrect⟩ := mem_left_of_forall₂ hchosen hr
        exact hcorrect.mpr (hparts r hr)

theorem GoldMarks.best?_correct_iff (hmarks : forest.GoldMarks f gold) (hforest : forest.Packs f p)
    {weights : Array α} {r : Root α} {packed : ForestRoot} {chosen : Choice α}
    (hpredicts : Predicts forest f m p weights r packed chosen) :
    (packed.gold && chosen.pick.correct) = true ↔ chosen.tree.Recombines gold := by
  have hr := (List.of_mem_zip hpredicts.mem).1
  have hderives := hpredicts.of.derives
  obtain ⟨x, hx⟩ := hderives.exists_item
  have hflag := (List.forall₂_iff_zip.mp hmarks.roots).2 hpredicts.mem
  rw [Bool.and_eq_true, hflag,
    hmarks.correct_iff hs hc hg hforest weights r.item hx hpredicts.pick_eq hpredicts.treeAt_eq]
  constructor
  · rintro ⟨⟨t, ht, hspan, hcat, _⟩, hkeys⟩
    exact ⟨hderives.site_eq.1.symm.trans (ht.site_eq.1.trans hspan),
      hderives.site_eq.2.symm.trans (ht.site_eq.2.trans hcat), hkeys⟩
  · exact fun h => ⟨⟨chosen.tree, hderives, h⟩, h.stepKeys⟩

omit hc in
theorem exists_steps {allowed : Nat → CatId → Prop}
    (hterminal : ∀ r ∈ c.grammar.rules, r.ruleType = .lexical → r.production = .terminal)
    (hgold : c.grammar.Licenses allowed gold) (hstart : c.grammar.isStart gold.step.cat = true)
    (p : Perceptron α) : ∃ es, p.refiner.expansions f.context gold = .ok es ∧
      ∀ e ∈ es, ∃ rule, f.context.lookupRule e.rule = .ok rule := by
  obtain ⟨es, hes, hchecks⟩ := hgold.expansions hg hterminal hstart p.refiner c.sentence
  rw [hs.context_eq]
  refine ⟨es, hes, fun e he => ?_⟩
  obtain ⟨rule, hrule⟩ := hchecks e he
  exact ⟨rule, Expansion.lookupRule_of_check hrule⟩

include hroots

omit hc hg in
theorem isStart_of_root {r : Root α} (hr : r ∈ f.roots) {t : Derivation} (ht : f.Derives r.item t) :
    c.grammar.isStart t.step.cat = true := by
  obtain ⟨id, item, x, hmem, htop, hx, _⟩ := hs.root_of_mem hroots hr
  have hcat := (hs.site_eq hx.1 (hx.2 ▸ hmem)).1
  rw [← ht.site_eq.2, FineChart.siteOf_eq hx.1, hcat, Grammar.isStart, htop]
  rfl

theorem goldMarks_of_pack {sentence : Nat} {p p' : Perceptron α} {forest : Forest}
    (h : (pack f sentence gold).run p = (.ok (some forest), p')) :
    forest.GoldMarks f gold ∧ ∃ r ∈ forest.roots, r.gold = true := by
  obtain ⟨-, -, hpacks⟩ := packs_of_pack h
  obtain ⟨-, steps, lists, hsteps, hlists, -⟩ := hpacks p' (.refl p')
  have hrules : ∀ e ∈ steps, ∃ rule, f.context.lookupRule e.rule = .ok rule := by
    intro e he
    obtain ⟨_, -, hfeatures⟩ := mem_right_of_forall₂ hlists he
    obtain ⟨rule, hrule, -⟩ := except_bind_eq_ok.mp hfeatures
    exact ⟨rule, hrule⟩
  obtain ⟨_, _, hrun, forest', hmarks, rfl⟩ := gives_pack hs hroots hc hg
    (fun q => ⟨steps, (q.expansions_eq p' f.context gold).trans hsteps, hrules⟩) sentence p
  rw [h] at hrun
  have hfound := Except.ok.inj (congrArg Prod.fst hrun)
  split at hfound
  · rename_i hany
    cases hfound
    exact ⟨hmarks, List.any_eq_true.mp hany⟩
  · cases hfound

/-- There is a forest if a derivation under a root is put together from steps of the gold one, and it has the
marks that say so. -/
theorem pack_of_licensed {allowed : Nat → CatId → Prop}
    (hterminal : ∀ r ∈ c.grammar.rules, r.ruleType = .lexical → r.production = .terminal)
    (hgold : c.grammar.Licenses allowed gold) (sentence : Nat) (p : Perceptron α) :
    ((∃ forest p', (pack f sentence gold).run p = (.ok (some forest), p')) ↔
      ∃ r ∈ f.roots, ∃ t, f.Derives r.item t ∧ t.Recombines gold) ∧
    ∀ forest p', (pack f sentence gold).run p = (.ok (some forest), p') → forest.GoldMarks f gold := by
  refine ⟨⟨?_, ?_⟩, fun forest p' hrun => (goldMarks_of_pack hs hroots hc hg hrun).1⟩
  · rintro ⟨forest, p', hrun⟩
    obtain ⟨hmarks, packed, hpacked, hflag⟩ := goldMarks_of_pack hs hroots hc hg hrun
    obtain ⟨r, hr, hiff⟩ := mem_left_of_forall₂ hmarks.roots hpacked
    exact ⟨r, hr, hiff.mp hflag⟩
  · rintro ⟨r, hr, t, ht, hrecombines⟩
    have hstart := hrecombines.cat_eq ▸ isStart_of_root hs hroots hr ht
    obtain ⟨_, p', hrun, forest, hmarks, rfl⟩ :=
      gives_pack hs hroots hc hg (exists_steps hs hg hterminal hgold hstart) sentence p
    obtain ⟨packed, hpacked, hiff⟩ := mem_right_of_forall₂ hmarks.roots hr
    have hany : forest.roots.any ForestRoot.gold = true :=
      List.any_eq_true.mpr ⟨packed, hpacked, hiff.mpr ⟨t, ht, hrecombines⟩⟩
    rw [if_pos hany] at hrun
    exact ⟨forest, p', hrun⟩

end

/-- There is a forest exactly if the gold derivation is one of the chart's, under a root; and then a prediction
is marked correct exactly if its derivation is the gold one, so that its features are the gold ones. The gold
derivation is any that the grammar licenses, as long as no unary steps in it come back to a category. -/
theorem best?_correct_iff_gold {g : Grammar} {s : Sentence} {tags : Supertags α} {beta : α}
    {maxItems gid : Nat} {categories : Array Category} {rules : List Rule}
    {markups : List (CatId × Markup)} {c : CoarseChart α}
    (hg : Grammar.ofRules gid categories rules markups = .ok g)
    (hc : CoarseChart.build g s tags beta maxItems = .ok c) {m : Model α} {retain : Retain} {beam : Option α}
    {f : FineChart α} (hf : FineChart.build c m retain beam = .ok f) {gold : Derivation}
    (hgold : g.Licenses (fun _ _ => True) gold) (hunrepeated : gold.Unrepeated) (sentence : Nat)
    (p : Perceptron α) :
    ((∃ forest p', (pack f sentence gold).run p = (.ok (some forest), p')) ↔
      ∃ r ∈ f.roots, f.Derives r.item gold) ∧
    ∀ forest p', (pack f sentence gold).run p = (.ok (some forest), p') → ∀ weights : Array α,
      ∃ pred t, forest.best? weights = some pred ∧ forest.bestTree? f weights = some t ∧
        (pred.correct = true ↔ t = gold) ∧
        ((∃ linear : Perceptron α, m = linear.toModel) → pred.correct = true → pred.counts = forest.gold) := by
  obtain ⟨rfl, rfl, hsat, _⟩ := CoarseChart.build_ok hc
  have hindexed := Grammar.indexed_ofRules hg
  have hsound := FineChart.sound_build hsat hf
  have hroots : f.roots = f.findRoots m := congrArg FineChart.roots (FineChart.build_ok hf)
  have hlicensed : ∀ {i t}, f.Derives i t → c.grammar.Licenses (tags.Offers c.beta) t := by
    intro i t ht
    obtain ⟨_, x, hx, hpacks, _⟩ := ht.under hsound hsat hindexed
    obtain ⟨span, source, _, hspan, hmem, _⟩ := hsound.exists_source hx
    rw [hsound.coarse_eq] at hpacks
    exact (hsat.licensed_of_packs hindexed hpacks hspan hmem).1
  obtain ⟨hiff, hmarks⟩ := pack_of_licensed hsound hroots hsat hindexed (Grammar.terminal_ofRules hg) hgold
    sentence p
  constructor
  · rw [hiff]
    constructor
    · rintro ⟨r, hr, t, ht, hrecombines⟩
      exact ⟨r, hr, hrecombines.eq (hlicensed ht) hgold hunrepeated ▸ ht⟩
    · exact fun ⟨r, hr, ht⟩ => ⟨r, hr, gold, ht, .refl gold⟩
  · intro forest p' hrun weights
    obtain ⟨_, _, hpost⟩ := packs_of_pack hrun
    obtain ⟨hforest, steps, lists, hsteps, hlists, hcounts⟩ := hpost p' (.refl p')
    obtain ⟨r, packed, chosen, hpredicts⟩ := hforest.exists_predicts hsound hsat hindexed weights hroots
    have hcorrect := (hmarks forest p' hrun).best?_correct_iff hsound hsat hindexed hforest hpredicts
    have hgoldTree : chosen.tree.Recombines gold ↔ chosen.tree = gold :=
      ⟨fun h => h.eq (hlicensed hpredicts.of.derives) hgold hunrepeated, fun h => h ▸ .refl _⟩
    refine ⟨_, _, hpredicts.best_eq, hpredicts.tree_eq, hcorrect.trans hgoldTree, ?_⟩
    rintro ⟨linear, rfl⟩ hflag
    have hexpansions : linear.refiner.expansions f.context chosen.tree = _ := hpredicts.expansions
    rw [hgoldTree.mp (hcorrect.mp hflag), linear.expansions_eq p', hsteps] at hexpansions
    cases hexpansions
    cases (mapM_of_forall₂ hlists).symm.trans (mapM_of_forall₂ hpredicts.features)
    exact hcounts.symm

end Forest

namespace Sample

theorem best?_correct_iff_gold_dogs_run : ∃ g c f, ∃ p : Perceptron EReal,
    Grammar.ofRules 7 categories rules [] = .ok g ∧ CoarseChart.build g dogsRun tags 1 10 = .ok c ∧
    FineChart.build c p.toModel .all none = .ok f ∧ g.Licenses (fun _ _ => True) goldTree ∧
    goldTree.Unrepeated ∧ (∃ r ∈ f.roots, f.Derives r.item goldTree) ∧
    ((∃ forest p', (Forest.pack f 0 goldTree).run p = (.ok (some forest), p')) ↔
      ∃ r ∈ f.roots, f.Derives r.item goldTree) ∧
    ∀ forest p', (Forest.pack f 0 goldTree).run p = (.ok (some forest), p') → ∀ weights : Array EReal,
      ∃ pred t, forest.best? weights = some pred ∧ forest.bestTree? f weights = some t ∧
        (pred.correct = true ↔ t = goldTree) ∧
        ((∃ linear : Perceptron EReal, p.toModel = linear.toModel) → pred.correct = true →
          pred.counts = forest.gold) := by
  obtain ⟨g, hg, _, hrules⟩ := exists_grammar
  have hindexed := Grammar.indexed_ofRules hg
  have hc := build_eq hindexed hrules
  let p : Perceptron EReal := .untrained g
  obtain ⟨f, hf⟩ := FineChart.exists_build (chart g) (m := p.toModel) rfl .all none
  obtain ⟨_, _, hsat, hwhole⟩ := CoarseChart.build_ok hc
  have hfinished := FineChart.finished_build hsat hindexed hf
  have hpacked := packed_goldTree hindexed hrules
  have hanalysis := (hsat.packed_iff hindexed hwhole).mp hpacked
  have hgold : g.Licenses (fun _ _ => True) goldTree := hanalysis.licensed.mono fun _ _ _ => trivial
  have hunrepeated : goldTree.Unrepeated := by decide
  obtain ⟨_, hscore⟩ := hanalysis.licensed.exists_score hindexed (Grammar.terminal_ofRules hg)
    hanalysis.start p dogsRun
  have hforest := Forest.exists_pack hfinished hsat hindexed hwhole (by simp [p, Perceptron.untrained]) hpacked
    (hfinished.sound.context_eq ▸ hscore) 0 p
  have h := Forest.best?_correct_iff_gold hg hc hf hgold hunrepeated 0 p
  exact ⟨g, chart g, f, p, hg, hc, hf, hgold, hunrepeated, h.1.mp hforest, h⟩

end Sample

end Categorial
