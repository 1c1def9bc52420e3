import Categorial.Chart.Extraction
import Categorial.Proofs.Fine.Roots
import Categorial.Proofs.Inside
import Categorial.Proofs.Lists
set_option autoImplicit false

namespace Categorial

/-- The score of an edge over derivations of its children. -/
def FineStep.total {α : Type} [Scalar α] (x : α) : List α → α
  | [] => x
  | y :: ys => Scalar.both x (ys.foldl Scalar.both y)

namespace FineStep

@[simp] theorem span_node (site : Site) (ts : List Derivation) (step : FineStep) :
    (step.node site ts).span = site.span := by cases step <;> rfl

@[simp] theorem step_node (site : Site) (ts : List Derivation) (step : FineStep) :
    (step.node site ts).step = ⟨site.cat, step.rule⟩ := by cases step <;> rfl

end FineStep

namespace FineChart

variable {α : Type}

/-- The derivations that the edges of a chart make under its items. -/
inductive Derives (f : FineChart α) : FineId → Derivation → Prop where
  | node {i : FineId} {x : FineItem α} {e : FineEdge α} {ts : List Derivation} :
      f.item? i = some x → e ∈ x.edges → List.Forall₂ (Derives f) e.step.children ts →
      Derives f i (e.step.node x.site ts)

theorem Derives.exists_item {f : FineChart α} {i : FineId} {t : Derivation} (h : f.Derives i t) :
    ∃ x, f.item? i = some x := by
  obtain ⟨hx⟩ := h
  exact ⟨_, hx⟩

theorem getElem?_bestTrees {f : FineChart α} {i : FineId} {x : FineItem α}
    (hx : f.item? i = some x) {e : FineEdge α} {rest : List (FineEdge α)} (hedges : x.edges = e :: rest)
    (hbelow : ∀ child ∈ e.step.children, child < i) :
    f.bestTrees[i]? =
      some (e.step.node x.site (e.step.children.filterMap fun child => f.bestTrees[child]?)) := by
  have hget : f.items.toList[i]? = some x := by simpa [item?] using hx
  rw [bestTrees, ← Array.foldl_toList]
  obtain ⟨before, hbefore, htree⟩ := (getElem?_foldl_push _ f.items.toList).2 i x hget
  refine htree.trans (congrArg some ?_)
  rw [hedges]
  refine congrArg (e.step.node x.site) (List.filterMap_congr fun child hchild => ?_)
  exact hbefore child (hbelow child hchild)

variable [Scalar α] {f : FineChart α} {m : Model α} {retain : Retain}

theorem getElem?_rankings (k : Nat) {i : FineId} {x : FineItem α} (hx : f.item? i = some x)
    (hbelow : ∀ e ∈ x.edges, ∀ child ∈ e.step.children, child < i) :
    (f.rankings k)[i]? = some (rank k (rankedEdges (f.rankings k) x)) := by
  have hget : f.items.toList[i]? = some x := by simpa [item?] using hx
  have htable := (getElem?_foldl_push
    (fun rankings item => rank k (rankedEdges rankings item)) f.items.toList).2 i x hget
  rw [Array.foldl_toList] at htable
  obtain ⟨before, hbefore, hget⟩ := htable
  refine hget.trans (congrArg some (congrArg (rank k) (List.map_congr_left fun e he => ?_)))
  have hchildren : (e.step.children.map fun child => before[child]?.getD .nil) =
      e.step.children.map fun child => (f.rankings k)[child]?.getD .nil := by
    refine List.map_congr_left fun child hchild => ?_
    exact congrArg (Option.getD · _) (hbefore child (hbelow e he child hchild))
  rw [hchildren]

section

variable {i : FineId} {x : FineItem α} {source : CoarseItem} {ps : List (Site × FineEdge α)}

/-- Every edge of an item is one that a step of its coarse item makes, over earlier items. -/
theorem Made.built_of_mem (h : f.Made m retain i x source ps) {e : FineEdge α} (he : e ∈ x.edges) :
    f.Built m source x.site e ∧ ∀ child ∈ e.step.children, child < i := by
  have hedges : x.edges = kept retain (edgesFor ps x.site.refinement) := by
    conv => lhs; rw [h.item_eq]
    rfl
  have hsite : x.site = ⟨source.cat, source.span, x.site.refinement⟩ := by
    conv => lhs; rw [h.item_eq]
    rfl
  rw [hedges] at he
  obtain ⟨site, hp, href⟩ := mem_edgesFor.mp (mem_of_mem_kept he)
  have hbuilt := h.built _ hp
  obtain ⟨hcat, hspan⟩ := hbuilt.site_eq
  have heq : site = x.site := by
    obtain ⟨cat, span, refinement⟩ := site
    simp only at hcat hspan href
    rw [hsite, hcat, hspan, href]
  exact ⟨heq ▸ hbuilt, h.below _ hp⟩

theorem Made.exists_first (h : f.Made m retain i x source ps) :
    ∃ e rest, x.edges = e :: rest ∧ x.score = e.score := by
  obtain ⟨p, hp, href⟩ := mem_refinementsOf.mp h.refinement
  have hne : kept retain (edgesFor ps x.site.refinement) ≠ [] :=
    kept_ne_nil retain (List.ne_nil_of_mem (mem_edgesFor.mpr ⟨p.1, hp, href⟩))
  obtain ⟨e, rest, hkept⟩ := List.exists_cons_of_ne_nil hne
  refine ⟨e, rest, ?_, ?_⟩
  · rw [h.item_eq]
    exact hkept
  · rw [h.item_eq]
    simp [itemOf, hkept]

end

variable {c : CoarseChart α} {tags : Supertags α}

theorem Sound.exists_source_in {spans : List Span} (h : Sound c m retain ((cellsOf c spans).map Prod.fst) f)
    {i : FineId} {x : FineItem α} (hx : f.item? i = some x) :
    ∃ span ∈ spans, ∃ source ps, (x.coarse, source) ∈ c.itemsOver span ∧ f.Made m retain i x source ps := by
  obtain ⟨source, ps, hmade⟩ := h.made i x hx
  obtain ⟨⟨_, item⟩, hentry, hid⟩ := List.mem_map.mp (h.known i x hx)
  obtain ⟨span, hspan, hmem⟩ := List.mem_flatMap.mp hentry
  have hmem := mem_levels.mp hmem
  obtain rfl := hid
  have hget := CoarseChart.item?_of_mem hmem
  rw [← h.coarse_eq, hmade.source_eq] at hget
  cases hget
  exact ⟨span, hspan, _, ps, hmem, hmade⟩

theorem Sound.exists_source (h : Sound c m retain ((cellsOf c (spansOf c.sentence.length)).map Prod.fst) f)
    {i : FineId} {x : FineItem α} (hx : f.item? i = some x) :
    ∃ span source ps, span.Within c.sentence.length ∧ (x.coarse, source) ∈ c.itemsOver span ∧
      f.Made m retain i x source ps := by
  obtain ⟨span, hspan, source, ps, hmem, hmade⟩ := h.exists_source_in hx
  exact ⟨span, source, ps, mem_spansOf.mp hspan, hmem, hmade⟩

variable {done : List CoarseId}

theorem Sound.site_eq (h : Sound c m retain done f) {i : FineId} {x : FineItem α} (hx : f.item? i = some x)
    {span : Span} {item : CoarseItem} (hmem : (x.coarse, item) ∈ c.itemsOver span) :
    x.site.cat = item.cat ∧ x.site.span = item.span := by
  obtain ⟨source, ps, hmade⟩ := h.made i x hx
  have hget := CoarseChart.item?_of_mem hmem
  rw [← h.coarse_eq, hmade.source_eq] at hget
  cases hget
  rw [hmade.item_eq]
  exact ⟨rfl, rfl⟩

theorem Sound.span_eq (h : Sound c m retain done f) (hc : c.Saturated tags) {span : Span}
    (hspan : span.Within c.sentence.length) {id : CoarseId} {item : CoarseItem}
    (hmem : (id, item) ∈ c.itemsOver span) {i : FineId} {x : FineItem α} (hx : f.Has id i x) :
    x.site.span = span := by
  obtain ⟨hget, rfl⟩ := hx
  rw [(h.site_eq hget hmem).2, hc.span_eq hspan hmem]

theorem Sound.below (h : Sound c m retain done f) {i : FineId} {x : FineItem α} (hx : f.item? i = some x)
    {e : FineEdge α} (he : e ∈ x.edges) : ∀ child ∈ e.step.children, child < i := by
  obtain ⟨_, _, hmade⟩ := h.made i x hx
  exact (hmade.built_of_mem he).2

/-- A derivation under an item, with its score from the bottom up. -/
def Under (f : FineChart α) (m : Model α) (i : FineId) (t : Derivation) (y : α) : Prop :=
  ∃ x, f.item? i = some x ∧ f.coarse.Packs x.coarse t ∧ m.Inside f.context t x.site y

theorem exists_parses {children : List FineId} {ts : List Derivation}
    (h : List.Forall₂ (fun child t => ∃ y, f.Under m child t y) children ts) :
    ∃ picked : List (Parse α), List.Forall₂ (fun child p => f.Under m child p.tree p.score) children picked ∧
      picked.map Parse.tree = ts := by
  induction h with
  | nil => exact ⟨[], .nil, rfl⟩
  | @cons child t _ _ ht _ ih =>
    obtain ⟨picked, hpicked, rfl⟩ := ih
    obtain ⟨y, hy⟩ := ht
    exact ⟨⟨t, y⟩ :: picked, .cons hy hpicked, rfl⟩

theorem Sound.packed_of_root
    (h : Sound c m retain ((cellsOf c (spansOf c.sentence.length)).map Prod.fst) f)
    (hroots : f.roots = f.findRoots m) {r : Root α} (hr : r ∈ f.roots) {m' : Model α} {t : Derivation}
    {y : α} (ht : f.Under m' r.item t y) : c.Packed t := by
  obtain ⟨id, item, x, hmem, htop, hx, _⟩ := h.root_of_mem hroots hr
  obtain ⟨x', hx', hpacks, _⟩ := ht
  cases hx.1.symm.trans hx'
  rw [hx.2, h.coarse_eq] at hpacks
  exact ⟨id, item, hmem, by simp [Grammar.isStart, htop], hpacks⟩

theorem Built.score_eq {item : CoarseItem} {site : Site} {e : FineEdge α}
    (h : f.Built m item site e) {scores : List α}
    (hscores : List.Forall₂ (fun i y => ∃ x, f.item? i = some x ∧ x.score = y) e.step.children scores) :
    e.score = FineStep.total e.localScore scores := by
  cases h with
  | lexical =>
    cases hscores
    rfl
  | unary _ hchild =>
    obtain ⟨_, _, ⟨_, hx, rfl⟩, hnil, rfl⟩ := List.forall₂_cons_left_iff.mp hscores
    cases hnil
    cases hchild.1.symm.trans hx
    rfl
  | binary _ hl hr =>
    obtain ⟨_, _, ⟨_, hx, rfl⟩, hrest, rfl⟩ := List.forall₂_cons_left_iff.mp hscores
    obtain ⟨_, _, ⟨_, hy, rfl⟩, hnil, rfl⟩ := List.forall₂_cons_left_iff.mp hrest
    cases hnil
    cases hl.1.symm.trans hx
    cases hr.1.symm.trans hy
    rfl

/-- An edge over derivations of its children makes one of its item, under any model that builds it. -/
theorem Built.under (hcoarse : f.coarse = c) (hc : c.Saturated tags) (hg : c.grammar.Indexed) {i : FineId}
    {x : FineItem α} (hx : f.item? i = some x) {span : Span} {source : CoarseItem}
    (hspan : span.Within c.sentence.length) (hmem : (x.coarse, source) ∈ c.itemsOver span)
    {e : FineEdge α} (hbuilt : f.Built m source x.site e) {picked : List (Parse α)}
    (hpicked : List.Forall₂ (fun child p => f.Under m child p.tree p.score) e.step.children picked) :
    f.Under m i (e.step.node x.site (picked.map Parse.tree))
      (FineStep.total e.localScore (picked.map Parse.score)) := by
  have hget := CoarseChart.item?_of_mem hmem
  rw [← hcoarse] at hget
  refine ⟨x, hx, ?_⟩
  obtain ⟨hcat, hsp⟩ := hbuilt.site_eq
  generalize x.site = site at *
  cases hbuilt with
  | lexical hstep hsite hlocal =>
    cases hpicked
    have hword := hc.word_eq hg hspan hmem hstep
    simp only [FineStep.node, List.map_nil, FineStep.total, hcat, hsp]
    exact ⟨.lexical hget hstep, .leaf (hword ▸ hsite) hlocal⟩
  | unary hstep hchild hsite hlocal =>
    obtain ⟨p, _, ⟨y, hy, hpacks, hinside⟩, hnil, rfl⟩ := List.forall₂_cons_left_iff.mp hpicked
    cases hnil
    cases hchild.1.symm.trans hy
    simp only [FineStep.node, List.map_cons, List.map_nil, FineStep.total, hcat, hsp]
    exact ⟨.unary hget hstep (hchild.2 ▸ hpacks), .unary hinside hsite hlocal⟩
  | binary hstep hl hr hsite hlocal =>
    obtain ⟨p, _, ⟨y, hy, hpacks, hinside⟩, hrest, rfl⟩ := List.forall₂_cons_left_iff.mp hpicked
    obtain ⟨q, _, ⟨z, hz, hpacks', hinside'⟩, hnil, rfl⟩ := List.forall₂_cons_left_iff.mp hrest
    cases hnil
    cases hl.1.symm.trans hy
    cases hr.1.symm.trans hz
    simp only [FineStep.node, List.map_cons, List.map_nil, FineStep.total, hcat, hsp]
    exact ⟨.binary hget hstep (hl.2 ▸ hpacks) (hr.2 ▸ hpacks'), .binary hinside hinside' hsite hlocal⟩

section

variable (hs : Sound c m retain ((cellsOf c (spansOf c.sentence.length)).map Prod.fst) f)
  (hc : c.Saturated tags) (hg : c.grammar.Indexed)

include hs hc hg

theorem under_node {i : FineId} {x : FineItem α} (hx : f.item? i = some x) {e : FineEdge α}
    (he : e ∈ x.edges) {picked : List (Parse α)}
    (hpicked : List.Forall₂ (fun child p => f.Under m child p.tree p.score) e.step.children picked) :
    f.Under m i (e.step.node x.site (picked.map Parse.tree))
      (FineStep.total e.localScore (picked.map Parse.score)) := by
  obtain ⟨span, source, ps, hspan, hmem, hmade⟩ := hs.exists_source hx
  exact (hmade.built_of_mem he).1.under hs.coarse_eq hc hg hx hspan hmem hpicked

theorem exists_bestTree (i : FineId) : ∀ {x : FineItem α}, f.item? i = some x →
    ∃ t, f.bestTrees[i]? = some t ∧ f.Under m i t x.score := by
  -- children have smaller numbers than their item
  induction i using Nat.strong_induction_on with
  | _ i ih =>
    intro x hx
    obtain ⟨_, source, ps, _, _, hmade⟩ := hs.exists_source hx
    obtain ⟨e, rest, hedges, hscore⟩ := hmade.exists_first
    have he : e ∈ x.edges := by simp [hedges]
    obtain ⟨hbuilt, hbelow⟩ := hmade.built_of_mem he
    obtain ⟨picked, hpicked⟩ : ∃ picked : List (Parse α), List.Forall₂ (fun child p =>
        f.bestTrees[child]? = some p.tree ∧ f.Under m child p.tree p.score ∧
          ∃ y, f.item? child = some y ∧ y.score = p.score) e.step.children picked := by
      refine exists_forall₂ fun child hchild => ?_
      obtain ⟨y, hy⟩ := hbuilt.exists_child hchild
      obtain ⟨t, ht, hunder⟩ := ih child (hbelow child hchild) hy
      exact ⟨⟨t, y.score⟩, ht, hunder, y, hy, rfl⟩
    refine ⟨_, getElem?_bestTrees hx hedges hbelow, ?_⟩
    have htrees := filterMap_eq_of_forall₂ (hpicked.imp fun _ _ h => h.1)
    have htotal := hbuilt.score_eq (List.forall₂_map_right_iff.mpr (hpicked.imp fun _ _ h => h.2.2))
    rw [htrees, hscore, htotal]
    exact under_node hs hc hg hx he (hpicked.imp fun _ _ h => h.2.1)

theorem viterbi?_of_cons (hroots : f.roots = f.findRoots m) {r : Root α} {rest : List (Root α)}
    (hcons : f.roots = r :: rest) : ∃ t y, f.viterbi? = some ⟨t, r.score⟩ ∧
      f.bestTrees[r.item]? = some t ∧ f.Under m r.item t y ∧ r.score = Scalar.both r.localScore y := by
  obtain ⟨id, item, x, _, _, hx, _, hscore, _⟩ :=
    hs.root_of_mem hroots (hcons ▸ List.mem_cons_self)
  obtain ⟨t, ht, hunder⟩ := exists_bestTree hs hc hg r.item hx.1
  refine ⟨t, x.score, ?_, ht, hunder, hscore⟩
  simp [viterbi?, hcons, ht]

theorem Derives.under (i : FineId) : ∀ {t : Derivation}, f.Derives i t → ∃ y, f.Under m i t y := by
  -- children have smaller numbers than their item
  induction i using Nat.strong_induction_on with
  | _ i ih =>
    intro t h
    obtain @⟨_, x, e, ts, hx, he, hts⟩ := h
    have hbelow := hs.below hx he
    obtain ⟨picked, hpicked, rfl⟩ := exists_parses (forall₂_imp_of_mem hts fun child hchild _ ht =>
      ih child (hbelow child hchild) ht)
    exact ⟨_, under_node hs hc hg hx he hpicked⟩

theorem under_unique {i j : FineId} {t : Derivation} {y z : α} (h : f.Under m i t y)
    (h' : f.Under m j t z) : i = j ∧ y = z := by
  obtain ⟨x, hx, hpacks, hinside⟩ := h
  obtain ⟨x', hx', hpacks', hinside'⟩ := h'
  obtain ⟨span, _, _, hspan, hmem, _⟩ := hs.exists_source hx
  obtain ⟨span', _, _, hspan', hmem', _⟩ := hs.exists_source hx'
  rw [hs.coarse_eq] at hpacks hpacks'
  have hcoarse := (hc.packs_unique hg hspan hspan' hmem hmem' hpacks hpacks').1
  obtain ⟨hsite, hscore⟩ := hinside.unique hinside'
  exact ⟨hs.once i j x x' hx hx' hcoarse (congrArg Site.refinement hsite), hscore⟩

theorem node_inj {i : FineId} {x : FineItem α} (hx : f.item? i = some x) {e e' : FineEdge α}
    (he : e ∈ x.edges) (he' : e' ∈ x.edges) {ts ts' : List Derivation}
    (hts : List.Forall₂ (fun child t => ∃ y, f.Under m child t y) e.step.children ts)
    (hts' : List.Forall₂ (fun child t => ∃ y, f.Under m child t y) e'.step.children ts')
    (h : e.step.node x.site ts = e'.step.node x.site ts') : e = e' ∧ ts = ts' := by
  obtain ⟨span, source, ps, hspan, hmem, hmade⟩ := hs.exists_source hx
  have hbuilt := (hmade.built_of_mem he).1
  have hbuilt' := (hmade.built_of_mem he').1
  have hsame : ∀ {j k : FineId} {t : Derivation}, (∃ y, f.Under m j t y) → (∃ y, f.Under m k t y) →
      j = k := fun ⟨_, hj⟩ ⟨_, hk⟩ => (under_unique hs hc hg hj hk).1
  -- the rule shows at the node, the children in the derivations below it
  suffices hstep : e.step = e'.step ∧ ts = ts' from ⟨(hbuilt.unique hbuilt' hstep.1).2, hstep.2⟩
  cases hbuilt with
  | lexical hstep =>
    cases hts
    cases hbuilt' with
    | lexical hstep' =>
      cases hts'
      simp only [FineStep.node, Derivation.leaf.injEq, Step.mk.injEq] at h
      have hword := (hc.word_eq hg hspan hmem hstep).trans (hc.word_eq hg hspan hmem hstep').symm
      exact ⟨by rw [h.1.2, hword], rfl⟩
    | unary => simp [FineStep.node] at h
    | binary => simp [FineStep.node] at h
  | unary =>
    obtain ⟨t, _, ht, hnil, rfl⟩ := List.forall₂_cons_left_iff.mp hts
    cases hnil
    cases hbuilt' with
    | lexical => simp [FineStep.node] at h
    | unary =>
      obtain ⟨t', _, ht', hnil, rfl⟩ := List.forall₂_cons_left_iff.mp hts'
      cases hnil
      simp only [FineStep.node, Derivation.branch.injEq, Step.mk.injEq, List.cons.injEq] at h
      obtain ⟨⟨_, rfl⟩, _, rfl, _⟩ := h
      exact ⟨by rw [hsame ht ht'], rfl⟩
    | binary =>
      obtain ⟨_, _, _, hrest, rfl⟩ := List.forall₂_cons_left_iff.mp hts'
      obtain ⟨_, _, _, _, rfl⟩ := List.forall₂_cons_left_iff.mp hrest
      simp [FineStep.node] at h
  | binary =>
    obtain ⟨t, _, ht, hrest, rfl⟩ := List.forall₂_cons_left_iff.mp hts
    obtain ⟨u, _, hu, hnil, rfl⟩ := List.forall₂_cons_left_iff.mp hrest
    cases hnil
    cases hbuilt' with
    | lexical => simp [FineStep.node] at h
    | unary =>
      obtain ⟨_, _, _, hnil, rfl⟩ := List.forall₂_cons_left_iff.mp hts'
      cases hnil
      simp [FineStep.node] at h
    | binary =>
      obtain ⟨t', _, ht', hrest, rfl⟩ := List.forall₂_cons_left_iff.mp hts'
      obtain ⟨u', _, hu', hnil, rfl⟩ := List.forall₂_cons_left_iff.mp hrest
      cases hnil
      simp only [FineStep.node, Derivation.branch.injEq, Step.mk.injEq, List.cons.injEq] at h
      obtain ⟨⟨_, rfl⟩, _, rfl, rfl, _⟩ := h
      exact ⟨by rw [hsame ht ht', hsame hu hu'], rfl⟩

end

end FineChart

end Categorial
