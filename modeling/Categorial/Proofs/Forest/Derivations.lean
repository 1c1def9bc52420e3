import Categorial.Proofs.Forest.Best
import Categorial.Proofs.Forest.Renumbered
set_option autoImplicit false

namespace Categorial

open Forest

theorem Tally.sum_ofList {κ : Type} [Ord κ] [DecidableEq κ] [Std.LawfulEqOrd κ] [Std.TransOrd κ] (weight : κ → EReal)
    {keys : List κ} (hkeys : ∀ k, keys.count k < 2 ^ 32) :
    ((ofList keys).toList.map fun (k, n) => (n : EReal) * weight k).sum = (keys.map weight).sum := by
  have hcounts := counts_ofList keys
  have hentry : ∀ e ∈ (ofList keys).toList, (e.2 : EReal) * weight e.1 = keys.count e.1 • weight e.1 := by
    intro e he
    rw [((hcounts.mem_iff e).mp he).2, Nat.mod_eq_of_lt (hkeys e.1), EReal.nsmul_eq_mul]
  have hnodup : ((ofList keys).toList.map Prod.fst).Nodup := hcounts.ascending.nodup
  have hset : ((ofList keys).toList.map Prod.fst).toFinset = keys.toFinset := by
    ext k
    simp only [List.mem_toFinset, List.mem_map]
    exact ⟨fun ⟨e, he, hk⟩ => hk ▸ key_of_mem_ofList he, fun hk =>
      ⟨(k, keys.count k % 2 ^ 32), (hcounts.mem_iff _).mpr ⟨hk, rfl⟩, rfl⟩⟩
  calc ((ofList keys).toList.map fun (k, n) => (n : EReal) * weight k).sum
      = (((ofList keys).toList.map Prod.fst).map fun k => keys.count k • weight k).sum := by
        rw [List.map_map]
        exact congrArg List.sum (List.map_congr_left hentry)
    _ = ∑ k ∈ keys.toFinset, keys.count k • weight k := by
        rw [← List.sum_toFinset _ hnodup, hset]
    _ = (keys.map weight).sum := (Finset.sum_list_map_count keys weight).symm

namespace Forest

section

variable {weights : Array EReal}

theorem weigh_eq_sum (features : List Nat) : weigh weights features = (features.map (weightOf weights)).sum := by
  rw [weigh, ExactScalar.sum_eq]

theorem weigh_append (features more : List Nat) :
    weigh weights (features ++ more) = weigh weights features + weigh weights more := by
  rw [weigh_eq_sum, weigh_eq_sum, weigh_eq_sum, List.map_append, List.sum_append]

theorem weigh_perm {features more : List Nat} (h : features.Perm more) :
    weigh weights features = weigh weights more := by
  rw [weigh_eq_sum, weigh_eq_sum, (h.map _).sum_eq]

def featuresOf (edges : List ForestEdge) : List Nat := edges.flatMap ForestEdge.features

theorem weigh_featuresOf (edges : List ForestEdge) :
    weigh weights (featuresOf edges) = (edges.map fun e => weigh weights e.features).sum := by
  induction edges with
  | nil => simp [featuresOf, weigh]
  | cons e edges ih =>
    rw [featuresOf, List.flatMap_cons, weigh_append, List.map_cons, List.sum_cons, ← ih, featuresOf]

end

/-- Every node has an edge, edges lead to nodes before their own, and roots to nodes that there are. -/
structure WellFormed (f : Forest) : Prop where
  edges : ∀ node ∈ f.nodes, node ≠ []
  children : ∀ {i : Nat} {node : ForestNode}, f.nodes[i]? = some node →
    ∀ e ∈ node, ∀ child ∈ e.children, child < i
  roots : ∀ r ∈ f.roots, r.node < f.nodes.length

/-- The edges of a derivation from a node downwards. -/
inductive Derives (f : Forest) : Nat → List ForestEdge → Prop where
  | node {i : Nat} {node : ForestNode} {e : ForestEdge} {parts : List (List ForestEdge)} :
      f.nodes[i]? = some node → e ∈ node → List.Forall₂ (Derives f) e.children parts →
      Derives f i (e :: parts.flatten)

/-- The pick of a node is the best of its derivations. -/
structure Picked (f : Forest) (weights : Array EReal) (i : Nat) (q : Pick EReal) : Prop where
  pick_eq : (f.picks weights).pick? i = some q
  attained : ∃ edges, f.Derives i edges ∧ q.score = weigh weights (featuresOf edges) ∧
    q.features.get.Perm (featuresOf edges)
  le : ∀ edges, f.Derives i edges → weigh weights (featuresOf edges) ≤ q.score

section

variable {f : Forest} {weights : Array EReal} {children : List Nat} {picked : List (Pick EReal)}
  (h : List.Forall₂ (f.Picked weights) children picked)

include h

theorem exists_parts : ∃ parts, List.Forall₂ f.Derives children parts ∧
    (picked.map Pick.score).sum = weigh weights (featuresOf parts.flatten) ∧
    (picked.reverse.flatMap fun q => q.features.get).Perm (featuresOf parts.flatten) := by
  suffices ∃ parts, List.Forall₂ f.Derives children parts ∧
      (picked.map Pick.score).sum = weigh weights (featuresOf parts.flatten) ∧
      (picked.flatMap fun q => q.features.get).Perm (featuresOf parts.flatten) from by
    obtain ⟨parts, hparts, hsum, hperm⟩ := this
    exact ⟨parts, hparts, hsum, ((List.reverse_perm picked).flatMap_right _).trans hperm⟩
  induction h with
  | nil => exact ⟨[], .nil, by simp [featuresOf, weigh], .refl _⟩
  | @cons child q _ _ hq _ ih =>
    obtain ⟨edges, hedges, hscore, hperm⟩ := hq.attained
    obtain ⟨parts, hparts, hsum, hbelow⟩ := ih
    have hfeatures : featuresOf (edges :: parts).flatten = featuresOf edges ++ featuresOf parts.flatten := by
      simp [featuresOf]
    refine ⟨edges :: parts, .cons hedges hparts, ?_, ?_⟩
    · rw [List.map_cons, List.sum_cons, hscore, hsum, hfeatures, weigh_append]
    · rw [List.flatMap_cons, hfeatures]
      exact hperm.append hbelow

theorem weigh_parts_le {parts : List (List ForestEdge)} (hparts : List.Forall₂ f.Derives children parts) :
    weigh weights (featuresOf parts.flatten) ≤ (picked.map Pick.score).sum := by
  induction h generalizing parts with
  | nil =>
    cases hparts
    simp [featuresOf, weigh]
  | cons hq _ ih =>
    cases hparts with
    | @cons _ edges _ parts hedges hparts =>
      have hfeatures : featuresOf (edges :: parts).flatten = featuresOf edges ++ featuresOf parts.flatten := by
        simp [featuresOf]
      rw [hfeatures, weigh_append, List.map_cons, List.sum_cons]
      exact add_le_add (hq.le _ hedges) (ih hparts)

theorem score_of_picked (e : ForestEdge) (hchildren : e.children = children) :
    e.score weights (f.picks weights) = weigh weights e.features + (picked.map Pick.score).sum := by
  subst hchildren
  rw [ForestEdge.score, score_of_picks (h.imp fun _ _ hq => hq.pick_eq)]

end

theorem WellFormed.exists_picked {f : Forest} (h : f.WellFormed) (weights : Array EReal) (i : Nat) :
    i < f.nodes.length → ∃ q, f.Picked weights i q := by
  -- edges lead to nodes before their own
  induction i using Nat.strong_induction_on with
  | _ i ih =>
    intro hi
    have hnode : f.nodes[i]? = some f.nodes[i] := List.getElem?_eq_getElem hi
    generalize f.nodes[i] = node at hnode
    have hpicked : ∀ e ∈ node, ∃ picked, List.Forall₂ (f.Picked weights) e.children picked := fun e he =>
      exists_forall₂ fun child hchild => by
        have hlt := h.children hnode e he child hchild
        exact ih child hlt (hlt.trans hi)
    obtain ⟨e, he, hfirst, hmax⟩ := firstBest?_spec (ForestEdge.score weights (f.picks weights))
      (h.edges node (List.mem_of_getElem? hnode))
    obtain ⟨picked, hchildren⟩ := hpicked e he
    have hscore := score_of_picked hchildren e rfl
    have hbelow : e.children.filterMap (f.picks weights).pick? = picked := by
      rw [filterMap_eq_of_forall₂ (k := id) (hchildren.imp fun _ _ hq => hq.pick_eq), List.map_id]
    obtain ⟨parts, hparts, hsum, hperm⟩ := exists_parts hchildren
    refine ⟨_, pick?_eq_of_first hnode (h.children hnode) he hfirst,
      ⟨e :: parts.flatten, .node hnode he hparts, ?_, ?_⟩, ?_⟩
    · rw [ForestEdge.pick, hscore, hsum, ← weigh_append]
      rfl
    · rw [ForestEdge.pick, hbelow]
      exact hperm.append_left e.features
    · intro edges hedges
      cases hedges with
      | @node _ node' e' parts' hnode' he' hparts' =>
        cases hnode.symm.trans hnode'
        obtain ⟨picked', hchildren'⟩ := hpicked e' he'
        calc weigh weights (featuresOf (e' :: parts'.flatten))
            = weigh weights e'.features + weigh weights (featuresOf parts'.flatten) := weigh_append _ _
          _ ≤ weigh weights e'.features + (picked'.map Pick.score).sum :=
              add_le_add_right (weigh_parts_le hchildren' hparts') _
          _ = e'.score weights (f.picks weights) := (score_of_picked hchildren' e' rfl).symm
          _ ≤ e.score weights (f.picks weights) := hmax e' he'

def rootFeatures (r : ForestRoot) (edges : List ForestEdge) : List Nat := r.features ++ featuresOf edges

theorem weigh_rootFeatures {weights : Array EReal} (r : ForestRoot) (edges : List ForestEdge) :
    weigh weights (rootFeatures r edges) =
      weigh weights r.features + (edges.map fun e => weigh weights e.features).sum := by
  rw [rootFeatures, weigh_append, weigh_featuresOf]

/-- The prediction goes through a derivation from a root, has its weight and counts its features, and no other
derivation weighs more. -/
structure Predicted (f : Forest) (weights : Array EReal) (p : Prediction EReal) : Prop where
  best_eq : f.best? weights = some p
  attained : ∃ r ∈ f.roots, ∃ edges, f.Derives r.node edges ∧ p.score = weigh weights (rootFeatures r edges) ∧
    p.counts = (Tally.ofList (rootFeatures r edges)).toList
  le : ∀ r ∈ f.roots, ∀ edges, f.Derives r.node edges → weigh weights (rootFeatures r edges) ≤ p.score

theorem WellFormed.exists_predicted {f : Forest} (h : f.WellFormed) (weights : Array EReal)
    (hroots : f.roots ≠ []) : ∃ p, f.Predicted weights p := by
  have hcandidate : ∀ r ∈ f.roots, ∃ q, f.Picked weights r.node q ∧
      (r, q) ∈ f.candidates (f.picks weights) := by
    intro r hr
    obtain ⟨q, hq⟩ := h.exists_picked weights r.node (h.roots r hr)
    exact ⟨q, hq, mem_candidates.mpr ⟨hr, hq.pick_eq⟩⟩
  have hne : f.candidates (f.picks weights) ≠ [] := by
    obtain ⟨r, hr⟩ := List.exists_mem_of_ne_nil _ hroots
    obtain ⟨q, _, hmem⟩ := hcandidate r hr
    exact List.ne_nil_of_mem hmem
  obtain ⟨⟨r, q⟩, hmem, hfirst, hmax⟩ := firstBest?_spec (rootScore weights) hne
  obtain ⟨hr, hpick⟩ := mem_candidates.mp hmem
  obtain ⟨_, hq, _⟩ := hcandidate r hr
  cases hpick.symm.trans hq.pick_eq
  obtain ⟨edges, hedges, hscore, hperm⟩ := hq.attained
  refine ⟨_, by rw [best?, hfirst]; rfl, ⟨r, hr, edges, hedges, ?_, ?_⟩, fun r' hr' edges' hedges' => ?_⟩
  · rw [rootScore, ExactScalar.both_eq, hscore, ← weigh_append]
    rfl
  · exact congrArg Tally.toList (Tally.ofList_eq_of_perm (hperm.append_left r.features))
  · obtain ⟨q', hq', hmem'⟩ := hcandidate r' hr'
    calc weigh weights (rootFeatures r' edges')
        = weigh weights r'.features + weigh weights (featuresOf edges') := weigh_append _ _
      _ ≤ weigh weights r'.features + q'.score := add_le_add_right (hq'.le _ hedges') _
      _ = rootScore weights (r', q') := by rw [rootScore, ExactScalar.both_eq]
      _ ≤ rootScore weights (r, q) := hmax _ hmem'

theorem best?_eq_none {f : Forest} (hroots : f.roots = []) (weights : Array EReal) : f.best? weights = none := by
  simp [best?, candidates, hroots, firstBest?]

theorem goldScore_eq_weigh {f : Forest} {keys : List Nat} (h : f.gold = (Tally.ofList keys).toList)
    (hkeys : ∀ feature, keys.count feature < 2 ^ 32) (weights : Array EReal) :
    f.goldScore weights = weigh weights keys := by
  rw [goldScore, ExactScalar.sum_eq, h, weigh_eq_sum]
  exact Tally.sum_ofList (weightOf weights) hkeys

theorem goldScore_le_renumber {f : Forest} (h : ∀ weights : Array EReal, ∃ p, f.best? weights = some p ∧
    f.goldScore weights ≤ p.score) (numbers : Renumbering) (weights : Array EReal) :
    ∃ p, (f.renumber numbers).best? weights = some p ∧ (f.renumber numbers).goldScore weights ≤ p.score := by
  -- every old feature weighs what its new number does
  let old : Array EReal := numbers.map fun new => new.elim 0 (weightOf weights)
  have hmoved : Moved numbers old weights := by
    intro feature
    rw [weightOf, Array.getElem?_map, newNumber?]
    cases numbers[feature]? with
    | none => simp
    | some new => rfl
  obtain ⟨p, hp, hle⟩ := h old
  have hbest := rel_best? hmoved f
  rw [hp] at hbest
  generalize (f.renumber numbers).best? weights = best' at hbest
  cases hbest with
  | @some _ p' h' => exact ⟨p', rfl, h'.1 ▸ goldScore_renumber hmoved f ▸ hle⟩

end Forest

end Categorial
