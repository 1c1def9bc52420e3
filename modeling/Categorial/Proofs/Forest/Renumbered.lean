import Categorial.Proofs.Forest.Choices
import Categorial.Proofs.ExactScalar
set_option autoImplicit false

namespace Categorial

theorem rel_firstBest? {α β γ : Type} [Scalar α] {R : β → γ → Prop} {score : β → α} {score' : γ → α}
    (h : ∀ x y, R x y → score x = score' y) {xs : List β} {ys : List γ} (hlists : List.Forall₂ R xs ys) :
    Option.Rel (fun a b => R a.1 b.1 ∧ a.2 = b.2) (firstBest? score xs) (firstBest? score' ys) := by
  have hfold : ∀ {before : List β} {before' : List γ},
      Option.Rel (fun a b => R a.1 b.1 ∧ a.2 = b.2) (firstBest? score before) (firstBest? score' before') →
      Option.Rel (fun a b => R a.1 b.1 ∧ a.2 = b.2) (firstBest? score (before ++ xs))
        (firstBest? score' (before' ++ ys)) := by
    induction hlists with
    | nil =>
      intro before before' hbefore
      simpa using hbefore
    | @cons x y xs ys hxy _ ih =>
      intro before before' hbefore
      rw [List.append_cons before x xs, List.append_cons before' y ys]
      refine ih ?_
      rw [firstBest?_append_singleton, firstBest?_append_singleton, h x y hxy]
      generalize firstBest? score before = best, firstBest? score' before' = best' at hbefore
      cases hbefore with
      | none => exact .some ⟨hxy, rfl⟩
      | @some a b hab =>
        simp only [hab.2]
        split
        · exact .some ⟨hxy, rfl⟩
        · exact .some ⟨hab.1, rfl⟩
  exact @hfold [] [] .none

namespace Forest

variable {numbers : Renumbering} {weights weights' : Array EReal}

def zeroed {α : Type} [Scalar α] (numbers : Renumbering) (weights : Array α) : Array α :=
  weights.mapIdx fun feature w => if (newNumber? numbers feature).isSome then w else Scalar.zero

/-- A feature weighs what its new number does, and nothing if it has none. -/
def Moved (numbers : Renumbering) (weights weights' : Array EReal) : Prop :=
  ∀ feature, weightOf weights feature = (newNumber? numbers feature).elim 0 (weightOf weights')

/-- The pick of a node after pruning. -/
structure RenumberedPick (numbers : Renumbering) (q q' : Pick EReal) : Prop where
  score_eq : q.score = q'.score
  correct_eq : q.correct = q'.correct
  features_eq : q'.features.get = q.features.get.filterMap (newNumber? numbers)

def RenumberedPicks (numbers : Renumbering) (picks picks' : Picks EReal) : Prop :=
  ∀ i, Option.Rel (RenumberedPick numbers) (picks.pick? i) (picks'.pick? i)

theorem RenumberedPicks.score_eq {picks picks' : Picks EReal} (h : RenumberedPicks numbers picks picks')
    (i : Nat) : picks.score i = picks'.score i := by
  have hrel := h i
  rw [Picks.score, Picks.score]
  generalize picks.pick? i = q, picks'.pick? i = q' at hrel
  cases hrel with
  | none => rfl
  | some hq => exact hq.score_eq

theorem RenumberedPicks.push {picks picks' : Picks EReal} (h : RenumberedPicks numbers picks picks')
    (hsize : picks.size = picks'.size) {q q' : Option (Pick EReal)}
    (hq : Option.Rel (RenumberedPick numbers) q q') :
    RenumberedPicks numbers (picks.push q) (picks'.push q') := by
  intro i
  rw [Picks.pick?, Picks.pick?, Array.getElem?_push, Array.getElem?_push, hsize]
  split
  · exact hq
  · exact h i

def renumberEdge (numbers : Renumbering) (e : ForestEdge) : ForestEdge :=
  { e with features := e.features.filterMap (newNumber? numbers) }

def renumberRoot (numbers : Renumbering) (r : ForestRoot) : ForestRoot :=
  { r with features := r.features.filterMap (newNumber? numbers) }

theorem flatMap_features {below below' : List (Pick EReal)}
    (h : List.Forall₂ (RenumberedPick numbers) below below') : (below'.flatMap fun q => q.features.get) =
      (below.flatMap fun q => q.features.get).filterMap (newNumber? numbers) := by
  induction h with
  | nil => rfl
  | cons hq _ ih => rw [List.flatMap_cons, List.flatMap_cons, List.filterMap_append, hq.features_eq, ih]

section

variable (hmoved : Moved numbers weights weights')

include hmoved

theorem weigh_renumber (features : List Nat) :
    weigh weights features = weigh weights' (features.filterMap (newNumber? numbers)) := by
  rw [weigh, weigh, ExactScalar.sum_eq, ExactScalar.sum_eq]
  induction features with
  | nil => rfl
  | cons feature features ih =>
    rw [List.map_cons, List.sum_cons, ih, hmoved feature]
    cases hnew : newNumber? numbers feature with
    | none => rw [List.filterMap_cons_none hnew, Option.elim_none, zero_add]
    | some new => rw [List.filterMap_cons_some hnew, Option.elim_some, List.map_cons, List.sum_cons]

theorem goldScore_renumber (f : Forest) : f.goldScore weights = (f.renumber numbers).goldScore weights' := by
  have hgold : (f.renumber numbers).gold = Tally.rename (newNumber? numbers) f.gold := rfl
  rw [goldScore, goldScore, ExactScalar.sum_eq, ExactScalar.sum_eq, hgold]
  induction f.gold with
  | nil => rfl
  | cons entry counts ih =>
    obtain ⟨feature, n⟩ := entry
    have hweight := hmoved feature
    rw [List.map_cons, List.sum_cons, ih]
    cases hnew : newNumber? numbers feature <;> simp [Tally.rename, hnew, hweight]

section

variable {picks picks' : Picks EReal} (hpicks : RenumberedPicks numbers picks picks')

include hpicks

theorem score_renumberEdge (e : ForestEdge) :
    e.score weights picks = (renumberEdge numbers e).score weights' picks' := by
  rw [ForestEdge.score, ForestEdge.score, weigh_renumber hmoved]
  simp only [hpicks.score_eq]
  rfl

omit hmoved in
theorem renumberedPick_edge (e : ForestEdge) (score : EReal) :
    RenumberedPick numbers (e.pick picks score) ((renumberEdge numbers e).pick picks' score) := by
  have hbelow : List.Forall₂ (RenumberedPick numbers) (e.children.filterMap picks.pick?)
      (e.children.filterMap picks'.pick?) :=
    forall₂_filterMap_of_rel (R := Eq) (fun i _ hi => hi ▸ hpicks i) (List.forall₂_eq_eq_eq ▸ rfl)
  have hcorrect : ∀ {below below' : List (Pick EReal)}, List.Forall₂ (RenumberedPick numbers) below below' →
      below.all Pick.correct = below'.all Pick.correct := by
    intro below below' h
    induction h with
    | nil => rfl
    | cons hq _ ih => rw [List.all_cons, List.all_cons, hq.correct_eq, ih]
  refine ⟨rfl, congrArg (e.gold && ·) (hcorrect hbelow), ?_⟩
  change _ = (e.features ++ (e.children.filterMap picks.pick?).reverse.flatMap fun q => q.features.get).filterMap _
  rw [List.filterMap_append, ← flatMap_features (List.rel_reverse hbelow)]
  rfl

theorem renumberedPick_node (node : ForestNode) :
    Option.Rel (RenumberedPick numbers) (ForestNode.pick? weights picks node)
      (ForestNode.pick? weights' picks' (node.map (renumberEdge numbers))) := by
  have hnode : List.Forall₂ (fun e e' => e' = renumberEdge numbers e) node (node.map (renumberEdge numbers)) :=
    List.forall₂_map_right_iff.mpr (List.forall₂_same.mpr fun _ _ => rfl)
  have hscore : ∀ e e', e' = renumberEdge numbers e → e.score weights picks = e'.score weights' picks' :=
    fun e e' he => he ▸ score_renumberEdge hmoved hpicks e
  have hfirst := rel_firstBest? hscore hnode
  rw [ForestNode.pick?, ForestNode.pick?]
  generalize firstBest? (ForestEdge.score weights picks) node = best,
    firstBest? (ForestEdge.score weights' picks') (node.map (renumberEdge numbers)) = best' at hfirst
  cases hfirst with
  | none => exact .none
  | @some a b hab =>
    obtain ⟨e, x⟩ := a
    obtain ⟨_, _⟩ := b
    obtain ⟨rfl, rfl⟩ := hab
    exact .some (renumberedPick_edge hpicks e x)

end

theorem renumberedPicks (f : Forest) :
    RenumberedPicks numbers (f.picks weights) ((f.renumber numbers).picks weights') := by
  -- the invariant carried along the nodes: as many picks on both sides, and alike
  have hfold : ∀ (nodes : List ForestNode) (picks picks' : Picks EReal),
      RenumberedPicks numbers picks picks' → picks.size = picks'.size →
      RenumberedPicks numbers
        (nodes.foldl (fun picks node => picks.push (ForestNode.pick? weights picks node)) picks)
        ((nodes.map fun node => node.map (renumberEdge numbers)).foldl
          (fun picks node => picks.push (ForestNode.pick? weights' picks node)) picks') := by
    intro nodes
    induction nodes with
    | nil => exact fun _ _ h _ => h
    | cons node nodes ih =>
      intro picks picks' h hsize
      exact ih _ _ (h.push hsize (renumberedPick_node hmoved h node)) (by simp [hsize])
  exact hfold f.nodes #[] #[] (fun _ => .none) rfl

/-- The best derivation of a forest in terms of a pruned table is that of the forest: it scores the same, is gold
as much, and has those of its features that are left. -/
theorem rel_best? (f : Forest) :
    Option.Rel (fun p p' => p.score = p'.score ∧ p.correct = p'.correct ∧
      ∃ keys, p.counts = (Tally.ofList keys).toList ∧
        p'.counts = (Tally.ofList (keys.filterMap (newNumber? numbers))).toList)
    (f.best? weights) ((f.renumber numbers).best? weights') := by
  have hpicks := renumberedPicks hmoved f
  have hroots : List.Forall₂ (fun r r' => r' = renumberRoot numbers r) f.roots (f.renumber numbers).roots :=
    List.forall₂_map_right_iff.mpr (List.forall₂_same.mpr fun _ _ => rfl)
  have hcandidates : List.Forall₂ (fun a b => b.1 = renumberRoot numbers a.1 ∧ RenumberedPick numbers a.2 b.2)
      (f.candidates (f.picks weights)) ((f.renumber numbers).candidates ((f.renumber numbers).picks weights')) := by
    refine forall₂_filterMap_of_rel (fun r r' hr => ?_) hroots
    subst hr
    have hrel := hpicks r.node
    change Option.Rel _ _ ((((f.renumber numbers).picks weights').pick? r.node).map _)
    generalize (f.picks weights).pick? r.node = q, ((f.renumber numbers).picks weights').pick? r.node = q' at hrel
    cases hrel with
    | none => exact .none
    | some hq => exact .some ⟨rfl, hq⟩
  have hscore : ∀ a b, b.1 = renumberRoot numbers a.1 ∧ RenumberedPick numbers a.2 b.2 →
      rootScore weights a = rootScore weights' b := by
    rintro a ⟨_, q'⟩ ⟨rfl, hq⟩
    rw [rootScore, rootScore, weigh_renumber hmoved, hq.score_eq]
    rfl
  have hfirst := rel_firstBest? hscore hcandidates
  rw [best?, best?]
  generalize firstBest? (rootScore weights) (f.candidates (f.picks weights)) = best,
    firstBest? (rootScore weights') ((f.renumber numbers).candidates ((f.renumber numbers).picks weights')) = best'
    at hfirst
  cases hfirst with
  | none => exact .none
  | @some a b hab =>
    obtain ⟨⟨r, q⟩, x⟩ := a
    obtain ⟨⟨_, q'⟩, _⟩ := b
    obtain ⟨⟨rfl, hq⟩, rfl⟩ := hab
    refine .some ⟨rfl, congrArg (r.gold && ·) hq.correct_eq, r.features ++ q.features.get, rfl, ?_⟩
    rw [List.filterMap_append, ← hq.features_eq]
    rfl

end

end Forest

end Categorial
