import Categorial.Proofs.Forest.Gold
import Categorial.Proofs.Tally
set_option autoImplicit false

namespace Categorial

section

variable {α β γ : Type} [Scalar α]

theorem firstBest?_append_singleton (score : β → α) (xs : List β) (x : β) :
    firstBest? score (xs ++ [x]) = match firstBest? score xs with
      | none => some (x, score x)
      | some (y, top) => if Scalar.lt top (score x) then some (x, score x) else some (y, top) := by
  unfold firstBest?
  rw [List.foldl_append]
  generalize List.foldl _ none xs = best
  cases best with
  | none => rfl
  | some best => rfl

theorem firstBest?_map (score : γ → α) (g : β → γ) (xs : List β) : firstBest? score (xs.map g) =
    (firstBest? (fun x => score (g x)) xs).map fun best => (g best.1, best.2) := by
  induction xs using List.reverseRecOn with
  | nil => rfl
  | append_singleton xs x ih =>
    rw [List.map_append, List.map_singleton, firstBest?_append_singleton, firstBest?_append_singleton, ih]
    cases firstBest? (fun x => score (g x)) xs with
    | none => rfl
    | some best =>
      simp only [Option.map_some]
      split <;> rfl

theorem firstBest?_congr {score score' : β → α} {xs : List β} (h : ∀ x ∈ xs, score x = score' x) :
    firstBest? score xs = firstBest? score' xs := by
  induction xs using List.reverseRecOn with
  | nil => rfl
  | append_singleton xs x ih =>
    obtain ⟨hxs, hx⟩ := List.forall_mem_append.mp h
    rw [firstBest?_append_singleton, firstBest?_append_singleton, ih hxs, hx x (List.mem_singleton_self x)]

theorem exists_firstBest? (score : β → α) {xs : List β} (hne : xs ≠ []) :
    ∃ x ∈ xs, firstBest? score xs = some (x, score x) := by
  induction xs using List.reverseRecOn with
  | nil => exact absurd rfl hne
  | append_singleton xs x ih =>
    rw [firstBest?_append_singleton]
    rcases eq_or_ne xs [] with rfl | hxs
    · exact ⟨x, by simp, rfl⟩
    · obtain ⟨y, hy, hfirst⟩ := ih hxs
      rw [hfirst]
      by_cases hlt : Scalar.lt (score y) (score x) = true
      · exact ⟨x, by simp, by simp [hlt]⟩
      · exact ⟨y, by simp [hy], by simp [hlt]⟩

end

namespace ForestEdge

variable {α : Type} [Scalar α] {weights : Array α} {picks picks' : Picks α} {e : ForestEdge}

theorem score_congr (h : ∀ c ∈ e.children, picks.pick? c = picks'.pick? c) :
    e.score weights picks = e.score weights picks' := by
  have hscores : e.children.map picks.score = e.children.map picks'.score :=
    List.map_congr_left fun c hc => congrArg (fun pick => pick.elim Scalar.bottom Pick.score) (h c hc)
  rw [score, score, ← List.foldl_map (f := picks.score), ← List.foldl_map (f := picks'.score), hscores]

omit [Scalar α] in
theorem pick_congr (h : ∀ c ∈ e.children, picks.pick? c = picks'.pick? c) (y : α) :
    e.pick picks y = e.pick picks' y := by
  rw [pick, pick, List.filterMap_congr h]

end ForestEdge

namespace Forest

variable {α : Type} [Scalar α]

/-- The edge of an item that scores best as an edge of the forest. -/
def bestEdge? (weights : Array α) (picks : Picks α) (x : FineItem α) (node : ForestNode) :
    Option (FineEdge α × ForestEdge) :=
  (firstBest? (fun pair => pair.2.score weights picks) (x.edges.zip node)).map Prod.fst

def trees (forest : Forest) (f : FineChart α) (weights : Array α) : Array (Option Derivation) :=
  (f.items.toList.zip forest.nodes).foldl (fun trees (x, node) => trees.push
    ((bestEdge? weights (forest.picks weights) x node).map fun (e, _) =>
      e.step.node x.site (e.step.children.filterMap fun child => trees[child]?.join))) #[]

def bestTree? (forest : Forest) (f : FineChart α) (weights : Array α) : Option Derivation :=
  (firstBest? (rootScore weights) (forest.candidates (forest.picks weights))).bind fun ((r, _), _) =>
    (forest.trees f weights)[r.node]?.join

omit [Scalar α] in
theorem mem_candidates {forest : Forest} {picks : Picks α} {packed : ForestRoot} {q : Pick α} :
    (packed, q) ∈ forest.candidates picks ↔
      packed ∈ forest.roots ∧ picks.pick? packed.node = some q := by
  simp only [candidates, List.mem_filterMap, Option.map_eq_some_iff, Prod.mk.injEq]
  constructor
  · rintro ⟨_, hroot, _, hpick, rfl, rfl⟩
    exact ⟨hroot, hpick⟩
  · rintro ⟨hroot, hpick⟩
    exact ⟨packed, hroot, q, hpick, rfl, rfl⟩

variable {forest : Forest} {f : FineChart α} {p : Perceptron α} {i : FineId} {x : FineItem α}

/-- The best edge of a node, packed and in the chart: the node's pick and its tree go through it. -/
structure BestEdge (forest : Forest) (f : FineChart α) (weights : Array α) (i : FineId) (x : FineItem α)
    (node : ForestNode) (e : FineEdge α) (packed : ForestEdge) : Prop where
  node_eq : forest.nodes[i]? = some node
  mem : (e, packed) ∈ x.edges.zip node
  first : firstBest? (ForestEdge.score weights (forest.picks weights)) node =
    some (packed, packed.score weights (forest.picks weights))
  pick_eq : (forest.picks weights).pick? i =
    some (packed.pick (forest.picks weights) (packed.score weights (forest.picks weights)))
  tree_eq : (forest.trees f weights)[i]?.join = some (e.step.node x.site
    (e.step.children.filterMap fun child => (forest.trees f weights)[child]?.join))

omit [Scalar α] in
theorem Packs.node_of (hforest : forest.Packs f p) (hx : f.item? i = some x) :
    ∃ node, forest.nodes[i]? = some node ∧ NodeOf f p x node :=
  getElem?_right_of_forall₂ hforest.nodes (by simpa [FineChart.item?] using hx)

section

variable {weights : Array α} {node : ForestNode} {e : FineEdge α} {packed : ForestEdge}

theorem pick?_eq_of_first (hnode : forest.nodes[i]? = some node)
    (hbelow : ∀ packed ∈ node, ∀ child ∈ packed.children, child < i) (hpacked : packed ∈ node)
    (hfirst : firstBest? (ForestEdge.score weights (forest.picks weights)) node =
      some (packed, packed.score weights (forest.picks weights))) :
    (forest.picks weights).pick? i =
      some (packed.pick (forest.picks weights) (packed.score weights (forest.picks weights))) := by
  obtain ⟨before, hbefore, hpick⟩ : ∃ before : Picks α,
      (∀ j < i, before[j]? = (forest.picks weights)[j]?) ∧
        (forest.picks weights)[i]? = some (ForestNode.pick? weights before node) :=
    (getElem?_foldl_push (ForestNode.pick? weights) forest.nodes).2 i node hnode
  have hchildren : ∀ packed ∈ node, ∀ child ∈ packed.children,
      before.pick? child = (forest.picks weights).pick? child := by
    intro packed hpacked child hchild
    rw [Picks.pick?, Picks.pick?, hbefore child (hbelow packed hpacked child hchild)]
  rw [Picks.pick?, hpick, Option.join_some, ForestNode.pick?,
    firstBest?_congr fun packed hpacked => ForestEdge.score_congr (hchildren packed hpacked), hfirst,
    Option.map_some]
  exact congrArg some (ForestEdge.pick_congr (hchildren packed hpacked) _)

theorem treeAt_eq_of_best (hx : f.item? i = some x) (hnode : forest.nodes[i]? = some node)
    (hbelow : ∀ child ∈ e.step.children, child < i)
    (hbest : bestEdge? weights (forest.picks weights) x node = some (e, packed)) :
    (forest.trees f weights)[i]?.join = some (e.step.node x.site
      (e.step.children.filterMap fun child => (forest.trees f weights)[child]?.join)) := by
  have hpair : (f.items.toList.zip forest.nodes)[i]? = some (x, node) :=
    List.getElem?_zip_eq_some.mpr ⟨by simpa [FineChart.item?] using hx, hnode⟩
  obtain ⟨before, hbefore, htree⟩ := (getElem?_foldl_push (fun trees (pair : FineItem α × ForestNode) =>
    (bestEdge? weights (forest.picks weights) pair.1 pair.2).map fun (e, _) =>
      e.step.node pair.1.site (e.step.children.filterMap fun child => trees[child]?.join))
    (f.items.toList.zip forest.nodes)).2 i (x, node) hpair
  have hget : (forest.trees f weights)[i]? = some (some (e.step.node x.site
      (e.step.children.filterMap fun child => before[child]?.join))) := by
    refine htree.trans ?_
    rw [hbest]
    rfl
  rw [hget, Option.join_some]
  refine congrArg (fun ts => some (e.step.node x.site ts)) (List.filterMap_congr fun child hchild => ?_)
  exact congrArg Option.join (hbefore child (hbelow child hchild))

end

theorem Packs.exists_bestEdge (hforest : forest.Packs f p) (weights : Array α) (hx : f.item? i = some x)
    (hne : x.edges ≠ []) (hbelow : ∀ e ∈ x.edges, ∀ child ∈ e.step.children, child < i) :
    ∃ node e packed, BestEdge forest f weights i x node e packed := by
  obtain ⟨node, hnode, hedges⟩ := hforest.node_of hx
  have hlength := hedges.length_eq
  have hsnd : (x.edges.zip node).map Prod.snd = node := List.map_snd_zip hlength.ge
  have hzip : x.edges.zip node ≠ [] := by
    rw [ne_eq, List.zip_eq_nil_iff, not_or]
    exact ⟨hne, fun h => hne (List.length_eq_zero_iff.mp (by rw [hlength, h, List.length_nil]))⟩
  obtain ⟨⟨e, packed⟩, hmem, hbest⟩ :=
    exists_firstBest? (fun pair => pair.2.score weights (forest.picks weights)) hzip
  have hfirst : firstBest? (ForestEdge.score weights (forest.picks weights)) node =
      some (packed, packed.score weights (forest.picks weights)) := by
    conv => lhs; rw [← hsnd]
    rw [firstBest?_map, hbest]
    rfl
  have hbelow' : ∀ packed ∈ node, ∀ child ∈ packed.children, child < i := by
    intro packed hpacked child hchild
    obtain ⟨e, he, hof⟩ := mem_left_of_forall₂ hedges hpacked
    rw [hof.children_eq] at hchild
    exact hbelow e he child hchild
  obtain ⟨he, hpacked⟩ := List.of_mem_zip hmem
  exact ⟨node, e, packed, hnode, hmem, hfirst, pick?_eq_of_first hnode hbelow' hpacked hfirst,
    treeAt_eq_of_best hx hnode (hbelow e he) (by rw [bestEdge?, hbest]; rfl)⟩

/-- What is chosen at a node: its pick and the derivation that this goes through, with the steps of the
derivation and their features. -/
structure Choice (α : Type) where
  pick : Pick α
  tree : Derivation
  steps : List Expansion
  lists : List (List Nat)

structure Choice.Of (r : Choice α) (f : FineChart α) (m : Model α) (p : Perceptron α) (i : FineId) : Prop where
  derives : f.Derives i r.tree
  walk : m.walk f.context r.tree = .ok (f.siteOf i, r.steps)
  features : List.Forall₂ (fun e indices => p.features f.context e = .ok indices) r.steps r.lists
  perm : r.pick.features.get.Perm r.lists.flatten

/-- The best edge of an item with what is chosen at the children. -/
structure BestStep (forest : Forest) (f : FineChart α) (m : Model α) (p : Perceptron α) (weights : Array α)
    (i : FineId) (x : FineItem α) (node : ForestNode) (e : FineEdge α) (packed : ForestEdge)
    (chosen : List (Choice α)) : Prop extends BestEdge forest f weights i x node e packed where
  edgeOf : EdgeOf f p x.site e packed
  children : List.Forall₂ (fun child r => (forest.picks weights).pick? child = some r.pick ∧
    (forest.trees f weights)[child]?.join = some r.tree ∧ r.Of f m p child) e.step.children chosen

section

variable {m : Model α} {weights : Array α} {node : ForestNode} {e : FineEdge α} {packed : ForestEdge}
  {chosen : List (Choice α)} (h : BestStep forest f m p weights i x node e packed chosen)

include h

theorem BestStep.picks_eq : packed.children.filterMap (forest.picks weights).pick? = chosen.map Choice.pick := by
  rw [h.edgeOf.children_eq]
  exact filterMap_eq_of_forall₂ (h.children.imp fun _ _ hr => hr.1)

theorem BestStep.treeAt_eq :
    (forest.trees f weights)[i]?.join = some (e.step.node x.site (chosen.map Choice.tree)) := by
  rw [h.tree_eq, filterMap_eq_of_forall₂ (h.children.imp fun _ _ hr => hr.2.1)]

theorem BestStep.derives : List.Forall₂ f.Derives e.step.children (chosen.map Choice.tree) :=
  List.forall₂_map_right_iff.mpr (h.children.imp fun _ _ hr => hr.2.2.derives)

end

omit [Scalar α] in
theorem perm_below {chosen : List (Choice α)} (h : ∀ r ∈ chosen, r.pick.features.get.Perm r.lists.flatten) :
    ((chosen.map Choice.pick).reverse.flatMap fun q => q.features.get).Perm
      (chosen.map Choice.lists).flatten.flatten := by
  refine ((List.reverse_perm _).flatMap_right _).trans ?_
  induction chosen with
  | nil => exact .refl _
  | cons r chosen ih =>
    obtain ⟨hr, hchosen⟩ := List.forall_mem_cons.mp h
    simpa using hr.append (ih hchosen)

theorem walk_node {β : Type} (tree : β → Derivation) (steps : β → List Expansion) {m : Model α}
    {source : CoarseItem} {site : Site} {e : FineEdge α}
    (hbuilt : f.Built m source site e)
    (hword : ∀ rule word, e.step = .lexical rule word → word = source.span.start) {chosen : List β}
    (h : List.Forall₂ (fun child r => m.walk f.context (tree r) = .ok (f.siteOf child, steps r))
      e.step.children chosen) :
    m.walk f.context (e.step.node site (chosen.map tree)) =
      .ok (site, (chosen.map steps).flatten ++ [f.expansionOf site e.step]) := by
  cases hbuilt with
  | lexical _ hsite =>
    cases h
    obtain rfl := hword _ _ rfl
    subst hsite
    rfl
  | unary _ hchild hsite =>
    obtain ⟨r, _, hr, hnil, rfl⟩ := List.forall₂_cons_left_iff.mp h
    cases hnil
    rw [FineChart.siteOf_eq hchild.1] at hr
    subst hsite
    rw [FineStep.node, List.map_cons, List.map_nil, Refiner.walk, hr]
    simp [bind, Except.bind, FineChart.expansionOf, FineChart.siteOf_eq hchild.1]
  | binary _ hl hr hsite =>
    obtain ⟨r, _, hleft, hrest, rfl⟩ := List.forall₂_cons_left_iff.mp h
    obtain ⟨r', _, hright, hnil, rfl⟩ := List.forall₂_cons_left_iff.mp hrest
    cases hnil
    rw [FineChart.siteOf_eq hl.1] at hleft
    rw [FineChart.siteOf_eq hr.1] at hright
    subst hsite
    rw [FineStep.node, List.map_cons, List.map_cons, List.map_nil, Refiner.walk, hleft]
    simp [bind, Except.bind, hright, FineChart.expansionOf, FineChart.siteOf_eq hl.1,
      FineChart.siteOf_eq hr.1]

variable {m : Model α} {retain : Retain} {c : CoarseChart α} {tags : Supertags α}
  (hs : FineChart.Sound c m retain ((FineChart.cellsOf c (spansOf c.sentence.length)).map Prod.fst) f)
  (hc : c.Saturated tags) (hg : c.grammar.Indexed) (hforest : forest.Packs f p) (weights : Array α)

include hs hforest

theorem Packs.exists_bestStep_of (hx : f.item? i = some x)
    (hchildren : ∀ j < i, ∀ y, f.item? j = some y → ∃ r : Choice α,
      (forest.picks weights).pick? j = some r.pick ∧ (forest.trees f weights)[j]?.join = some r.tree ∧
        r.Of f m p j) :
    ∃ node e packed chosen, BestStep forest f m p weights i x node e packed chosen := by
  obtain ⟨_, _, hmade⟩ := hs.made i x hx
  have hne : x.edges ≠ [] := by
    obtain ⟨_, _, hedges, _⟩ := hmade.exists_first
    rw [hedges]
    exact List.cons_ne_nil _ _
  obtain ⟨node, e, packed, hbest⟩ := hforest.exists_bestEdge weights hx hne fun _ he => hs.below hx he
  obtain ⟨hbuilt, hbelow⟩ := hmade.built_of_mem (List.of_mem_zip hbest.mem).1
  obtain ⟨chosen, hchosen⟩ := exists_forall₂ fun child hchild => by
    obtain ⟨y, hy⟩ := hbuilt.exists_child hchild
    exact hchildren child (hbelow child hchild) y hy
  refine ⟨node, e, packed, chosen, hbest, ?_, hchosen⟩
  obtain ⟨node', hnode', hedges⟩ := hforest.node_of hx
  cases hbest.node_eq.symm.trans hnode'
  exact (List.forall₂_iff_zip.mp hedges).2 hbest.mem

include hc hg

theorem Packs.exists_choice (i : FineId) : ∀ {x : FineItem α}, f.item? i = some x →
    ∃ r : Choice α, (forest.picks weights).pick? i = some r.pick ∧
      (forest.trees f weights)[i]?.join = some r.tree ∧ r.Of f m p i := by
  -- children have smaller numbers than their item
  induction i using Nat.strong_induction_on with
  | _ i ih =>
    intro x hx
    obtain ⟨span, source, ps, hspan, hmem, hmade⟩ := hs.exists_source hx
    obtain ⟨node, e, packed, chosen, hbest⟩ :=
      hforest.exists_bestStep_of hs weights hx fun j hj _ hy => ih j hj hy
    have he := (List.of_mem_zip hbest.mem).1
    have hbuilt := (hmade.built_of_mem he).1
    have hof : ∀ r ∈ chosen, ∃ child, r.Of f m p child := fun r hr => by
      obtain ⟨child, _, _, _, hr⟩ := mem_left_of_forall₂ hbest.children hr
      exact ⟨child, hr⟩
    refine ⟨⟨_, e.step.node x.site (chosen.map Choice.tree),
      (chosen.map Choice.steps).flatten ++ [f.expansionOf x.site e.step],
      (chosen.map Choice.lists).flatten ++ [packed.features]⟩, hbest.pick_eq, hbest.treeAt_eq, ?_⟩
    constructor
    · exact .node hx he hbest.derives
    · rw [FineChart.siteOf_eq hx]
      exact walk_node Choice.tree Choice.steps hbuilt
        (fun _ _ hstep => hc.word_eq hg hspan hmem (hbuilt.lexical_mem hstep))
        (hbest.children.imp fun _ _ h => h.2.2.walk)
    · have hbelow : List.Forall₂ (fun e indices => p.features f.context e = .ok indices)
          (chosen.map Choice.steps).flatten (chosen.map Choice.lists).flatten := by
        refine List.rel_flatten (List.forall₂_map_left_iff.mpr (List.forall₂_map_right_iff.mpr
          (List.forall₂_same.mpr fun r hr => ?_)))
        obtain ⟨_, hr⟩ := hof r hr
        exact hr.features
      exact List.rel_append hbelow (.cons hbest.edgeOf.features .nil)
    · have hbelow := perm_below fun r hr => by
        obtain ⟨_, hr⟩ := hof r hr
        exact hr.perm
      change (packed.features ++ (packed.children.filterMap (forest.picks weights).pick?).reverse.flatMap
        fun q => q.features.get).Perm _
      rw [hbest.picks_eq, List.flatten_append, List.flatten_singleton]
      exact (hbelow.append_left packed.features).trans List.perm_append_comm

theorem Packs.exists_bestStep (hx : f.item? i = some x) :
    ∃ node e packed chosen, BestStep forest f m p weights i x node e packed chosen :=
  hforest.exists_bestStep_of hs weights hx fun j _ _ hy => hforest.exists_choice hs hc hg weights j hy

/-- The prediction goes through a root and its tree, and counts the features of all steps. -/
structure Predicts (forest : Forest) (f : FineChart α) (m : Model α) (p : Perceptron α) (weights : Array α)
    (r : Root α) (packed : ForestRoot) (chosen : Choice α) : Prop where
  mem : (r, packed) ∈ f.roots.zip forest.roots
  pick_eq : (forest.picks weights).pick? r.item = some chosen.pick
  first : firstBest? (rootScore weights) (forest.candidates (forest.picks weights)) =
    some ((packed, chosen.pick), rootScore weights (packed, chosen.pick))
  best_eq : forest.best? weights = some ⟨rootScore weights (packed, chosen.pick),
    (Tally.ofList (chosen.lists ++ [packed.features]).flatten).toList, packed.gold && chosen.pick.correct⟩
  tree_eq : forest.bestTree? f weights = some chosen.tree
  treeAt_eq : (forest.trees f weights)[r.item]?.join = some chosen.tree
  of : chosen.Of f m p r.item
  expansions : m.expansions f.context chosen.tree = .ok (chosen.steps ++ [.top r.rule (f.siteOf r.item)])
  features : List.Forall₂ (fun e indices => p.features f.context e = .ok indices)
    (chosen.steps ++ [.top r.rule (f.siteOf r.item)]) (chosen.lists ++ [packed.features])

theorem Packs.exists_predicts (hroots : f.roots = f.findRoots m) :
    ∃ r packed chosen, Predicts forest f m p weights r packed chosen := by
  have hchoice : ∀ r ∈ f.roots, ∃ chosen : Choice α, (forest.picks weights).pick? r.item = some chosen.pick ∧
      (forest.trees f weights)[r.item]?.join = some chosen.tree ∧ chosen.Of f m p r.item := by
    intro r hr
    obtain ⟨_, _, _, _, _, hx, _⟩ := hs.root_of_mem hroots hr
    exact hforest.exists_choice hs hc hg weights r.item hx.1
  have hne : forest.candidates (forest.picks weights) ≠ [] := by
    obtain ⟨packed, hpacked⟩ := List.exists_mem_of_ne_nil _ hforest.spans
    obtain ⟨r, hr, hof⟩ := mem_left_of_forall₂ hforest.roots hpacked
    obtain ⟨chosen, hpick, _⟩ := hchoice r hr
    exact List.ne_nil_of_mem (mem_candidates.mpr ⟨hpacked, hof.node_eq ▸ hpick⟩)
  obtain ⟨⟨packed, q⟩, hmem, hfirst⟩ := exists_firstBest? (rootScore weights) hne
  obtain ⟨hpacked, hpick⟩ := mem_candidates.mp hmem
  obtain ⟨r, hzip⟩ := exists_mem_zip hforest.roots hpacked
  have hr := (List.of_mem_zip hzip).1
  have hof : RootOf f p r packed := (List.forall₂_iff_zip.mp hforest.roots).2 hzip
  obtain ⟨chosen, hpick', htree, hchosen⟩ := hchoice r hr
  rw [hof.node_eq] at hpick
  cases hpick.symm.trans hpick'
  have htally : Tally.ofList (packed.features ++ chosen.pick.features.get) =
      Tally.ofList (chosen.lists ++ [packed.features]).flatten := by
    refine Tally.ofList_eq_of_perm ?_
    rw [List.flatten_append, List.flatten_singleton]
    exact (hchosen.perm.append_left packed.features).trans List.perm_append_comm
  refine ⟨r, packed, chosen, hzip, hpick', hfirst, ?_, ?_, htree, hchosen, ?_,
    List.rel_append hchosen.features (.cons hof.features .nil)⟩
  · simp only [best?, hfirst, Option.map_some, htally]
  · simp only [bestTree?, hfirst, Option.bind_some, hof.node_eq, htree]
  · obtain ⟨id, item, x, hitem, hrule, hx, _⟩ := hs.root_of_mem hroots hr
    have htop : f.context.grammar.topRule? (f.siteOf r.item).cat = some r.rule := by
      rw [FineChart.siteOf_eq hx.1, (hs.site_eq hx.1 (hx.2 ▸ hitem)).1]
      simpa only [FineChart.context, hs.coarse_eq] using hrule
    rw [Refiner.expansions, hchosen.walk]
    simp only [bind, Except.bind, htop]
    rfl

end Forest

end Categorial
