import Categorial.Proofs.Checked
import Categorial.Proofs.Forest.Packed
import Categorial.Proofs.Forest.Rescored
set_option autoImplicit false

/-!
Which nodes packing marks as gold: those with a derivation under them all of whose steps are steps of the gold
derivation, as far as a step shows its span, category, rule and the spans of its children. So packing does not
lose the gold derivation: if it is a derivation of the chart, there is a forest.
-/

namespace Categorial

namespace Registering

variable {α β γ : Type}

/-- The computation does not fail, whatever has been registered, and what it gives is as said. -/
def Gives (x : Registering α β) (post : β → Prop) : Prop :=
  ∀ m, ∃ a m', x.run m = (.ok a, m') ∧ post a

theorem gives_pure {a : β} {post : β → Prop} (h : post a) : Gives (pure a : Registering α β) post :=
  fun m => ⟨a, m, rfl, h⟩

theorem gives_bind {x : Registering α β} {f : β → Registering α γ} {P : β → Prop} {Q : γ → Prop}
    (hx : Gives x P) (hf : ∀ a, P a → Gives (f a) Q) : Gives (x >>= f) Q := by
  intro m
  obtain ⟨a, m', hrun, ha⟩ := hx m
  obtain ⟨b, m'', hrun', hb⟩ := hf a ha m'
  refine ⟨b, m'', ?_, hb⟩
  rw [exceptT_run_bind, hrun]
  exact hrun'

theorem gives_mapM {f : β → Registering α γ} {P : β → γ → Prop} {xs : List β}
    (hf : ∀ x ∈ xs, Gives (f x) (P x)) : Gives (xs.mapM f) (List.Forall₂ P xs) := by
  induction xs with
  | nil =>
    rw [List.mapM_nil]
    exact gives_pure .nil
  | cons x xs ih =>
    obtain ⟨hx, hxs⟩ := List.forall_mem_cons.mp hf
    rw [List.mapM_cons]
    exact gives_bind hx fun y hy => gives_bind (ih hxs) fun ys hys => gives_pure (.cons hy hys)

theorem gives_check {x : Except Error β} {a : β} (h : x = .ok a) :
    Gives (check x : Registering α β) fun b => b = a := by
  intro m
  subst h
  exact ⟨a, m, rfl, rfl⟩

theorem gives_get : Gives (get : Registering α (Perceptron α)) fun _ => True :=
  fun m => ⟨m, m, rfl, trivial⟩

theorem gives_features {ctx : Context} {e : Expansion} (h : ∃ rule, ctx.lookupRule e.rule = .ok rule) :
    Gives (features ctx e : Registering α (List Nat)) fun _ => True := by
  obtain ⟨rule, hrule⟩ := h
  intro m
  rw [run_features, Perceptron.register, hrule]
  exact ⟨_, _, rfl, trivial⟩

end Registering

namespace Grammar.Licenses

variable {α : Type} [Scalar α] {g : Grammar} {allowed : Nat → CatId → Prop} {t : Derivation} (hg : g.Indexed)
  (hterminal : ∀ r ∈ g.rules, r.ruleType = .lexical → r.production = .terminal)
  (h : g.Licenses allowed t) (hstart : g.isStart t.step.cat = true)

include hg hterminal h hstart

theorem exists_score_of_check {m : Model α} {s : Sentence}
    (hm : ∀ e r, e.check ⟨g, s⟩ = .ok r → ∃ x, m.score ⟨g, s⟩ e = .ok x) :
    ∃ z, m.scoreDerivation ⟨g, s⟩ t = .ok z := by
  obtain ⟨es, hes, hchecks⟩ := h.expansions hg hterminal hstart m.toRefiner s
  cases hscore : m.scoreDerivation ⟨g, s⟩ t with
  | ok z => exact ⟨z, rfl⟩
  | error err =>
    obtain ⟨es', hes', e, he, err', herr⟩ := (Model.scoreDerivation_error_iff ⟨es, hes⟩).mp ⟨err, hscore⟩
    cases hes.symm.trans hes'
    obtain ⟨rule, hrule⟩ := hchecks e he
    obtain ⟨x, hx⟩ := hm e rule hrule
    cases herr.symm.trans hx

theorem exists_score (m : Perceptron α) (s : Sentence) : ∃ z, m.toModel.scoreDerivation ⟨g, s⟩ t = .ok z :=
  h.exists_score_of_check hg hterminal hstart fun _ rule hrule =>
    ⟨_, Perceptron.score_eq_ok.mpr ⟨rule, hrule, rfl⟩⟩

end Grammar.Licenses

namespace Derivation

theorem mem_stepKeysOf {ts : List Derivation} {k : StepKey} :
    k ∈ stepKeysOf ts ↔ ∃ t ∈ ts, k ∈ t.stepKeys := by
  induction ts with
  | nil => simp [stepKeysOf]
  | cons t ts ih => simp [stepKeysOf, ih]

theorem stepKeys_node {site : Site} {step : FineStep} {ts : List Derivation}
    (h : step.children.length = ts.length) : (step.node site ts).stepKeys =
      ⟨site.span, site.cat, step.rule, ts.map Derivation.span⟩ :: stepKeysOf ts := by
  cases step with
  | lexical rule word =>
    obtain rfl : ts = [] := List.length_eq_zero_iff.mp h.symm
    rfl
  | unary rule child => rfl
  | binary rule left right => rfl

/-- The derivation has the root of another one, and only steps that the other one has as well. -/
structure Recombines (t gold : Derivation) : Prop where
  span_eq : t.span = gold.span
  cat_eq : t.step.cat = gold.step.cat
  stepKeys : ∀ k ∈ t.stepKeys, k ∈ gold.stepKeys

theorem Recombines.refl (t : Derivation) : t.Recombines t := ⟨rfl, rfl, fun _ hk => hk⟩

end Derivation

namespace FineChart

variable {α : Type} {f : FineChart α}

theorem Derives.site_eq {i : FineId} {t : Derivation} (h : f.Derives i t) :
    (f.siteOf i).span = t.span ∧ (f.siteOf i).cat = t.step.cat := by
  cases h with
  | node hx =>
    rw [siteOf_eq hx]
    simp

theorem spans_of_derives {children : List FineId} {ts : List Derivation}
    (h : List.Forall₂ f.Derives children ts) :
    ts.map Derivation.span = children.map fun child => (f.siteOf child).span := by
  induction h with
  | nil => rfl
  | cons ht _ ih => rw [List.map_cons, List.map_cons, ih, ht.site_eq.1]

theorem stepKeys_edge {site : Site} {step : FineStep} {ts : List Derivation}
    (h : List.Forall₂ f.Derives step.children ts) :
    (step.node site ts).stepKeys = f.keyOf site step :: Derivation.stepKeysOf ts := by
  rw [Derivation.stepKeys_node h.length_eq, keyOf, spans_of_derives h]

section

variable [Scalar α] {c : CoarseChart α} {tags : Supertags α} {m : Model α} {retain : Retain}
  (hs : Sound c m retain ((cellsOf c (spansOf c.sentence.length)).map Prod.fst) f)
  (hc : c.Saturated tags) (hg : c.grammar.Indexed)

include hs hg

theorem Sound.exists_rule_edge (hc : c.Saturated tags) {i : FineId} {x : FineItem α} (hx : f.item? i = some x)
    {e : FineEdge α} (he : e ∈ x.edges) :
    ∃ rule, f.context.lookupRule (f.expansionOf x.site e.step).rule = .ok rule := by
  obtain ⟨span, source, ps, hspan, hmem, hmade⟩ := hs.exists_source hx
  obtain ⟨step, hstep, hrule⟩ := (hmade.built_of_mem he).1.exists_step
  obtain ⟨r, hr⟩ := ((hc.mem_steps hg hspan hmem).mp hstep).exists_rule hg
  have hexpansion : (f.expansionOf x.site e.step).rule = e.step.rule := by cases e.step <;> rfl
  refine ⟨r, ?_⟩
  rw [Context.lookupRule, context, hs.coarse_eq, hexpansion, ← hrule, hr]
  rfl

theorem Sound.exists_rule_root (hroots : f.roots = f.findRoots m) {r : Root α} (hr : r ∈ f.roots) :
    ∃ rule, f.context.lookupRule r.rule = .ok rule := by
  obtain ⟨_, _, _, _, htop, _⟩ := hs.root_of_mem hroots hr
  obtain ⟨rule, hrule, _⟩ := hg.rule_of_topRule? htop
  refine ⟨rule, ?_⟩
  rw [Context.lookupRule, context, hs.coarse_eq, hrule]
  rfl

end

end FineChart

namespace Forest

open Registering

variable {α : Type} {f : FineChart α} {gold : List StepKey}

/-- An edge is gold if the gold derivation has its step, over gold nodes. -/
def Marked (f : FineChart α) (gold : List StepKey) (nodes : Array ForestNode) (site : Site)
    (e : FineEdge α) (packed : ForestEdge) : Prop :=
  packed.gold = (gold.contains (f.keyOf site e.step) && e.step.children.all (isGold nodes))

/-- All edges of the nodes are marked so, each over the nodes that there are in the end. -/
structure Marks (f : FineChart α) (gold : List StepKey) (nodes : Array ForestNode) : Prop where
  size_eq : nodes.size = f.items.size
  node : ∀ (i : FineId) (x : FineItem α), f.item? i = some x →
    ∃ node, nodes[i]? = some node ∧ List.Forall₂ (Marked f gold nodes x.site) x.edges node

theorem Marks.isGold_iff {nodes : Array ForestNode} (hmarks : Marks f gold nodes)
    (hbelow : ∀ i x, f.item? i = some x → ∀ e ∈ x.edges, ∀ child ∈ e.step.children, child < i)
    (i : FineId) : isGold nodes i = true ↔ ∃ t, f.Derives i t ∧ ∀ k ∈ t.stepKeys, k ∈ gold := by
  -- when an item is packed, the nodes of its children are marked
  induction i using Nat.strong_induction_on with
  | _ i ih =>
    constructor
    · intro h
      obtain ⟨x, hx⟩ : ∃ x, f.item? i = some x := by
        cases hnode : nodes[i]? with
        | none => simp [isGold, hnode] at h
        | some node =>
          have hlt := (Array.getElem?_eq_some_iff.mp hnode).1
          rw [hmarks.size_eq] at hlt
          exact ⟨f.items[i], Array.getElem?_eq_getElem hlt⟩
      obtain ⟨node, hnode, hedges⟩ := hmarks.node i x hx
      rw [isGold, hnode, Option.any_some, List.any_eq_true] at h
      obtain ⟨packed, hpacked, hgold⟩ := h
      obtain ⟨e, he, hmarked⟩ := mem_left_of_forall₂ hedges hpacked
      rw [Marked, hgold, eq_comm, Bool.and_eq_true, List.contains_iff_mem, List.all_eq_true] at hmarked
      obtain ⟨hkey, hchildren⟩ := hmarked
      obtain ⟨ts, hts⟩ := exists_forall₂ fun child hchild =>
        (ih child (hbelow i x hx e he child hchild)).mp (hchildren child hchild)
      have hderives := hts.imp fun _ _ ht => ht.1
      refine ⟨_, .node hx he hderives, fun k hk => ?_⟩
      rw [FineChart.stepKeys_edge hderives, List.mem_cons, Derivation.mem_stepKeysOf] at hk
      rcases hk with rfl | ⟨t, ht, hk⟩
      · exact hkey
      · obtain ⟨_, _, _, hkeys⟩ := mem_left_of_forall₂ hts ht
        exact hkeys k hk
    · rintro ⟨t, ht, hkeys⟩
      obtain @⟨_, x, e, ts, hx, he, hts⟩ := ht
      obtain ⟨node, hnode, hedges⟩ := hmarks.node i x hx
      obtain ⟨packed, hpacked, hmarked⟩ := mem_right_of_forall₂ hedges he
      rw [FineChart.stepKeys_edge hts] at hkeys
      obtain ⟨hkey, hparts⟩ := List.forall_mem_cons.mp hkeys
      have hchildren : e.step.children.all (isGold nodes) = true := by
        rw [List.all_eq_true]
        intro child hchild
        obtain ⟨t, ht, hchildDerives⟩ := mem_right_of_forall₂ hts hchild
        exact (ih child (hbelow i x hx e he child hchild)).mpr
          ⟨t, hchildDerives, fun k hk => hparts k (Derivation.mem_stepKeysOf.mpr ⟨t, ht, hk⟩)⟩
      rw [Marked, hchildren, Bool.and_true, List.contains_iff_mem.mpr hkey] at hmarked
      rw [isGold, hnode, Option.any_some, List.any_eq_true]
      exact ⟨packed, hpacked, hmarked⟩

theorem gives_packItem (nodes : Array ForestNode) {item : FineItem α} (hrules : ∀ e ∈ item.edges,
    ∃ rule, f.context.lookupRule (f.expansionOf item.site e.step).rule = .ok rule) :
    Gives (packItem f gold nodes item) fun nodes' => ∃ node, nodes' = nodes.push node ∧
      List.Forall₂ (Marked f gold nodes item.site) item.edges node := by
  refine gives_bind (gives_mapM (P := Marked f gold nodes item.site) fun e he => ?_) fun edges hedges =>
    gives_pure ⟨edges, rfl, hedges⟩
  exact gives_bind (gives_features (hrules e he)) fun _ _ => gives_pure rfl

theorem gives_packItems {items : List (FineItem α)} (hrules : ∀ item ∈ items, ∀ e ∈ item.edges,
    ∃ rule, f.context.lookupRule (f.expansionOf item.site e.step).rule = .ok rule) :
    Gives (items.foldlM (packItem f gold) #[]) fun nodes => nodes.size = items.length ∧
      ∀ (i : Nat) (item : FineItem α), items[i]? = some item →
        ∃ (before : Array ForestNode) (node : ForestNode), (∀ j < i, before[j]? = nodes[j]?) ∧
          nodes[i]? = some node ∧ List.Forall₂ (Marked f gold before item.site) item.edges node := by
  induction items using List.reverseRecOn with
  | nil => exact gives_pure (by simp)
  | append_singleton items item ih =>
    obtain ⟨hrules, hlast⟩ := List.forall_mem_append.mp hrules
    rw [List.foldlM_append]
    refine gives_bind (ih hrules) fun nodes hnodes => ?_
    rw [List.foldlM_cons]
    refine gives_bind (gives_packItem nodes (hlast item (List.mem_singleton_self _))) fun nodes' hnodes' => ?_
    obtain ⟨node, rfl, hnode⟩ := hnodes'
    obtain ⟨hsize, hbefore⟩ := hnodes
    refine gives_pure ⟨by simp [hsize], fun i x hx => ?_⟩
    rcases Nat.lt_or_ge i items.length with hlt | hge
    · rw [List.getElem?_append_left hlt] at hx
      obtain ⟨before, node', hagree, hget, hmarked⟩ := hbefore i x hx
      refine ⟨before, node', fun j hj => ?_, ?_, hmarked⟩
      · rw [hagree j hj, Array.getElem?_push, if_neg (by omega)]
      · rw [Array.getElem?_push, if_neg (by omega), hget]
    · obtain rfl : i = items.length := by
        have hlt := (List.getElem?_eq_some_iff.mp hx).1
        rw [List.length_append, List.length_singleton] at hlt
        omega
      rw [List.getElem?_concat_length] at hx
      cases hx
      refine ⟨nodes, node, fun j hj => ?_, ?_, hnode⟩
      · rw [Array.getElem?_push, if_neg (by omega)]
      · rw [Array.getElem?_push, if_pos hsize.symm]

theorem marks_of_packed {nodes : Array ForestNode}
    (hbelow : ∀ i x, f.item? i = some x → ∀ e ∈ x.edges, ∀ child ∈ e.step.children, child < i)
    (hsize : nodes.size = f.items.toList.length)
    (h : ∀ (i : Nat) (item : FineItem α), f.items.toList[i]? = some item →
      ∃ (before : Array ForestNode) (node : ForestNode), (∀ j < i, before[j]? = nodes[j]?) ∧
        nodes[i]? = some node ∧ List.Forall₂ (Marked f gold before item.site) item.edges node) :
    Marks f gold nodes where
  size_eq := by rw [hsize, Array.length_toList]
  node i x hx := by
    obtain ⟨before, node, hbefore, hnode, hmarked⟩ := h i x (by simpa [FineChart.item?] using hx)
    refine ⟨node, hnode, forall₂_imp_of_mem hmarked fun e he packed hpacked => ?_⟩
    have hall : e.step.children.all (isGold before) = e.step.children.all (isGold nodes) := by
      rw [Bool.eq_iff_iff, List.all_eq_true, List.all_eq_true]
      refine forall₂_congr fun child hchild => ?_
      rw [isGold, isGold, hbefore child (hbelow i x hx e he child hchild)]
    rwa [Marked, hall] at hpacked

theorem gives_packRoot (gold : Derivation) (nodes : Array ForestNode) {r : Root α}
    (hrule : ∃ rule, f.context.lookupRule r.rule = .ok rule) :
    Gives (packRoot f gold nodes r) fun packed => packed.gold = (isGold nodes r.item &&
      (f.siteOf r.item).span == gold.span && (f.siteOf r.item).cat == gold.step.cat) :=
  gives_bind (gives_features hrule) fun _ _ => gives_pure rfl

/-- All marks of a forest: a root is gold if under its item there is a derivation that is put together from
steps of the gold one, from the same root on. -/
structure GoldMarks (forest : Forest) (f : FineChart α) (gold : Derivation) : Prop where
  nodes : Marks f gold.stepKeys forest.nodes.toArray
  roots : List.Forall₂ (fun r packed => packed.gold = true ↔
    ∃ t, f.Derives r.item t ∧ t.Recombines gold) f.roots forest.roots

section

variable [Scalar α] {c : CoarseChart α} {tags : Supertags α} {m : Model α} {retain : Retain}
  (hs : FineChart.Sound c m retain ((FineChart.cellsOf c (spansOf c.sentence.length)).map Prod.fst) f)
  (hroots : f.roots = f.findRoots m) (hc : c.Saturated tags) (hg : c.grammar.Indexed)
  {gold : Derivation}

include hs hroots hc hg

theorem gives_pack (hsteps : ∀ p : Perceptron α, ∃ es, p.refiner.expansions f.context gold = .ok es ∧
      ∀ e ∈ es, ∃ rule, f.context.lookupRule e.rule = .ok rule) (sentence : Nat) :
    Gives (pack f sentence gold) fun forest? => ∃ forest, forest.GoldMarks f gold ∧
      forest? = if forest.roots.any ForestRoot.gold then some forest else none := by
  have hbelow : ∀ i x, f.item? i = some x → ∀ e ∈ x.edges, ∀ child ∈ e.step.children, child < i :=
    fun _ _ hx _ he => hs.below hx he
  have hrules : ∀ item ∈ f.items.toList, ∀ e ∈ item.edges,
      ∃ rule, f.context.lookupRule (f.expansionOf item.site e.step).rule = .ok rule := by
    intro item hitem e he
    obtain ⟨i, hi⟩ := List.mem_iff_getElem?.mp hitem
    exact hs.exists_rule_edge hg hc (i := i) (by simpa [FineChart.item?] using hi) he
  refine gives_bind gives_get fun p _ => ?_
  obtain ⟨steps, hexpansions, hlookups⟩ := hsteps p
  refine gives_bind (gives_check (a := steps) (by rw [hexpansions]; rfl)) fun _ heq => ?_
  subst heq
  refine gives_bind (gives_mapM fun e he => gives_features (hlookups e he)) fun goldFeatures _ => ?_
  refine gives_bind (gives_packItems hrules) fun nodes hnodes => ?_
  refine gives_bind (gives_mapM fun r hr => gives_packRoot gold nodes (hs.exists_rule_root hg hroots hr))
    fun roots hmarked => ?_
  have hmarks := marks_of_packed hbelow hnodes.1 hnodes.2
  refine gives_pure ⟨⟨sentence, nodes.toList, roots, _⟩, ⟨hmarks, hmarked.imp fun r packed hpacked => ?_⟩, rfl⟩
  rw [hpacked, Bool.and_eq_true, Bool.and_eq_true, beq_iff_eq, beq_iff_eq, hmarks.isGold_iff hbelow]
  constructor
  · rintro ⟨⟨⟨t, ht, hkeys⟩, hspan⟩, hcat⟩
    exact ⟨t, ht, ht.site_eq.1.symm.trans hspan, ht.site_eq.2.symm.trans hcat, hkeys⟩
  · rintro ⟨t, ht, hspan, hcat, hkeys⟩
    exact ⟨⟨⟨t, ht, hkeys⟩, ht.site_eq.1.trans hspan⟩, ht.site_eq.2.trans hcat⟩

end

section

variable {c : CoarseChart EReal} {tags : Supertags EReal} {m : Perceptron EReal} {f : FineChart EReal}
  (hf : FineChart.Finished c m.toModel .all f) (hc : c.Saturated tags) (hg : c.grammar.Indexed)

include hf hc hg

theorem exists_pack (hwhole : c.wholeSpan.Within c.sentence.length) (hm : ∀ x ∈ m.weights, x ≠ ⊥)
    {gold : Derivation} (hgold : c.Packed gold) {z : EReal}
    (hscore : m.toModel.scoreDerivation f.context gold = .ok z) (sentence : Nat) (m' : Perceptron EReal) :
    ∃ forest m'', (pack f sentence gold).run m' = (.ok (some forest), m'') := by
  -- the gold derivation is possible, and all edges are kept, so there is a root over it
  obtain ⟨r, hr, _, y, hunder, _⟩ := hf.exists_root_ge hc hg (by decide) hwhole hgold hscore
    (Perceptron.scoreDerivation_ne_bot hm hscore)
  have hderives := FineChart.derives_of_under hf hc hg r.item hunder
  obtain ⟨_, m'', hrun, forest, hmarks, rfl⟩ := gives_pack hf.sound hf.roots_eq hc hg (fun p => by
    obtain ⟨_, hscore'⟩ := Perceptron.exists_scoreDerivation hscore p
    exact Perceptron.exists_rules hscore') sentence m'
  obtain ⟨packed, hpacked, hflag⟩ := mem_right_of_forall₂ hmarks.roots hr
  have hany : forest.roots.any ForestRoot.gold = true :=
    List.any_eq_true.mpr ⟨packed, hpacked, hflag.mpr ⟨gold, hderives, .refl gold⟩⟩
  rw [if_pos hany] at hrun
  exact ⟨forest, m'', hrun⟩

end

end Forest

end Categorial
