import Categorial.Proofs.Fine.Group
set_option autoImplicit false

namespace Categorial

namespace FineChart

variable {α : Type}

def Has (f : FineChart α) (id : CoarseId) (i : FineId) (item : FineItem α) : Prop :=
  f.item? i = some item ∧ item.coarse = id

theorem mem_liveItems {f : FineChart α} {id : CoarseId} {i : FineId} {item : FineItem α} :
    (i, item) ∈ f.liveItems id ↔ i ∈ f.liveOf id ∧ f.item? i = some item := by
  simp only [liveItems, List.mem_filterMap, Option.map_eq_some_iff, Prod.mk.injEq]
  constructor
  · rintro ⟨_, hi, _, hx, rfl, rfl⟩
    exact ⟨hi, hx⟩
  · rintro ⟨hi, hx⟩
    exact ⟨i, hi, item, hx, rfl, rfl⟩

theorem item?_addItems (f : FineChart α) (id : CoarseId) (group : List (FineItem α)) (i : FineId) :
    (f.addItems id group).item? i =
      if i < f.items.size then f.item? i else group[i - f.items.size]? := by
  simp only [item?, addItems, Array.getElem?_append]
  split <;> simp

theorem liveOf_addItems (f : FineChart α) (id id' : CoarseId) (group : List (FineItem α)) :
    (f.addItems id group).liveOf id' =
      if id = id' then List.range' f.items.size group.length else f.liveOf id' := by
  simp [liveOf, addItems, Std.HashMap.getD_insert]

theorem lt_size_of_item? {f : FineChart α} {i : FineId} {item : FineItem α}
    (h : f.item? i = some item) :
    i < f.items.size := (Array.getElem?_eq_some_iff.mp h).1

/-- A chart goes on from another: items stay as they are, but for the mark of the beam. -/
structure Extends (f f' : FineChart α) : Prop where
  coarse_eq : f'.coarse = f.coarse
  item : ∀ i item, f.item? i = some item → ∃ pruned, f'.item? i = some { item with pruned }

theorem extends_addItems (f : FineChart α) (id : CoarseId) (group : List (FineItem α)) :
    f.Extends (f.addItems id group) where
  coarse_eq := rfl
  item i item h := by
    refine ⟨item.pruned, ?_⟩
    rw [item?_addItems, if_pos (lt_size_of_item? h)]
    exact h

variable [Scalar α]

/-- An edge that a step of a coarse item makes of items of the chart, with the phrase that it builds. -/
inductive Built (f : FineChart α) (m : Model α) (item : CoarseItem) : Site → FineEdge α → Prop where
  | lexical {rule : RuleId} {word : Nat} {site : Site} {x : α} :
      .lexical rule word ∈ item.steps →
      site = ⟨item.cat, item.span, m.refineLexical f.context item.cat word⟩ →
      m.score f.context (.lexical rule site) = .ok x →
      Built f m item site ⟨.lexical rule word, x, x⟩
  | unary {rule : RuleId} {id : CoarseId} {i : FineId} {child : FineItem α} {site : Site} {x : α} :
      .unary rule id ∈ item.steps → f.Has id i child →
      site = ⟨item.cat, item.span, m.refineUnary f.context rule child.site⟩ →
      m.score f.context (.unary rule site child.site) = .ok x →
      Built f m item site ⟨.unary rule i, x, Scalar.both x child.score⟩
  | binary {rule : RuleId} {l r : CoarseId} {i j : FineId} {left right : FineItem α} {site : Site}
      {x : α} : .binary rule l r ∈ item.steps → f.Has l i left → f.Has r j right →
      site = ⟨item.cat, item.span, m.refineBinary f.context rule left.site right.site⟩ →
      m.score f.context (.binary rule site left.site right.site) = .ok x →
      Built f m item site
        ⟨.binary rule i j, x, Scalar.both x (Scalar.both left.score right.score)⟩

variable {f f' : FineChart α} {m : Model α} {retain : Retain}

theorem Built.site_eq {item : CoarseItem} {site : Site} {e : FineEdge α}
    (h : f.Built m item site e) : site.cat = item.cat ∧ site.span = item.span := by
  cases h with
  | lexical _ hsite => exact hsite ▸ ⟨rfl, rfl⟩
  | unary _ _ hsite => exact hsite ▸ ⟨rfl, rfl⟩
  | binary _ _ _ hsite => exact hsite ▸ ⟨rfl, rfl⟩

theorem Built.unique {item : CoarseItem} {site site' : Site} {e e' : FineEdge α}
    (h : f.Built m item site e) (h' : f.Built m item site' e') (hstep : e.step = e'.step) :
    site = site' ∧ e = e' := by
  cases h with
  | lexical _ hsite hx =>
    cases h' with
    | lexical _ hsite' hx' =>
      simp only [FineStep.lexical.injEq] at hstep
      obtain ⟨rfl, rfl⟩ := hstep
      subst hsite hsite'
      cases hx.symm.trans hx'
      exact ⟨rfl, rfl⟩
    | unary => cases hstep
    | binary => cases hstep
  | unary _ hchild hsite hx =>
    cases h' with
    | lexical => cases hstep
    | unary _ hchild' hsite' hx' =>
      simp only [FineStep.unary.injEq] at hstep
      obtain ⟨rfl, rfl⟩ := hstep
      cases hchild.1.symm.trans hchild'.1
      subst hsite hsite'
      cases hx.symm.trans hx'
      exact ⟨rfl, rfl⟩
    | binary => cases hstep
  | binary _ hl hr hsite hx =>
    cases h' with
    | lexical => cases hstep
    | unary => cases hstep
    | binary _ hl' hr' hsite' hx' =>
      simp only [FineStep.binary.injEq] at hstep
      obtain ⟨rfl, rfl, rfl⟩ := hstep
      cases hl.1.symm.trans hl'.1
      cases hr.1.symm.trans hr'.1
      subst hsite hsite'
      cases hx.symm.trans hx'
      exact ⟨rfl, rfl⟩

theorem built_of_mem_proposals (hlive : ∀ id, ∀ i ∈ f.liveOf id, ∃ item, f.Has id i item)
    {item : CoarseItem} {p : Site × FineEdge α} (hp : p ∈ f.proposals m item) :
    f.Built m item p.1 p.2 := by
  obtain ⟨step, hstep, hp⟩ := List.mem_flatMap.mp hp
  have hstep : step ∈ item.steps := Array.mem_toList_iff.mp hstep
  have hhas : ∀ {id : CoarseId} {i : FineId} {x : FineItem α}, (i, x) ∈ f.liveItems id →
      f.Has id i x := by
    intro id i x hx
    obtain ⟨hi, hget⟩ := mem_liveItems.mp hx
    obtain ⟨y, hy⟩ := hlive id i hi
    cases hget.symm.trans hy.1
    exact hy
  cases step with
  | lexical rule word =>
    simp only [edgesOf, Option.mem_toList, edge?_eq_some] at hp
    obtain ⟨x, hx, rfl⟩ := hp
    exact .lexical hstep rfl hx
  | unary rule id =>
    simp only [edgesOf, List.mem_filterMap, edge?_eq_some] at hp
    obtain ⟨⟨i, child⟩, hi, x, hx, rfl⟩ := hp
    exact .unary hstep (hhas hi) rfl hx
  | binary rule l r =>
    simp only [edgesOf, List.mem_flatMap, List.mem_filterMap, edge?_eq_some] at hp
    obtain ⟨⟨i, left⟩, hi, ⟨j, right⟩, hj, x, hx, rfl⟩ := hp
    exact .binary hstep (hhas hi) (hhas hj) rfl hx

theorem Built.extend (hf : f.Extends f') {item : CoarseItem} {site : Site} {e : FineEdge α}
    (h : f.Built m item site e) : f'.Built m item site e := by
  have hctx : f'.context = f.context := by simp only [context, hf.coarse_eq]
  have hhas : ∀ {id : CoarseId} {i : FineId} {x : FineItem α}, f.Has id i x →
      ∃ pruned, f'.Has id i { x with pruned } := by
    intro id i x hx
    obtain ⟨p, hp⟩ := hf.item _ _ hx.1
    exact ⟨p, hp, hx.2⟩
  cases h with
  | lexical hstep hsite hx =>
    rw [← hctx] at hsite hx
    exact .lexical hstep hsite hx
  | unary hstep hchild hsite hx =>
    rw [← hctx] at hsite hx
    obtain ⟨_, hchild'⟩ := hhas hchild
    have h := Built.unary hstep hchild' hsite hx
    exact h
  | binary hstep hl hr hsite hx =>
    rw [← hctx] at hsite hx
    obtain ⟨_, hl'⟩ := hhas hl
    obtain ⟨_, hr'⟩ := hhas hr
    have h := Built.binary hstep hl' hr' hsite hx
    exact h

end FineChart

end Categorial
