import Categorial.Forest.Packing
import Categorial.Proofs.Checked
import Categorial.Proofs.KBest.Listing
set_option autoImplicit false

namespace Categorial

/-- Models that refine phrases alike take a derivation apart in the same way. -/
theorem Refiner.walk_congr (m m' : Refiner) (hlexical : m.refineLexical = m'.refineLexical)
    (hunary : m.refineUnary = m'.refineUnary) (hbinary : m.refineBinary = m'.refineBinary) (ctx : Context)
    (t : Derivation) : m.walk ctx t = m'.walk ctx t := by
  induction t using Derivation.induction with
  | leaf step span => rw [walk, walk, hlexical]
  | branch step span children ih =>
    obtain _ | ⟨l, _ | ⟨r, _ | ⟨_, _⟩⟩⟩ := children
    · rfl
    · rw [walk, walk, ih l (by simp), hunary]
    · rw [walk, walk, ih l (by simp), ih r (by simp), hbinary]
    · rfl

namespace Perceptron

variable {α : Type} [Scalar α] {m p : Perceptron α} {ctx : Context} {e : Expansion} {x : α}

theorem score_eq_ok : m.toModel.score ctx e = .ok x ↔
    ∃ rule, e.check ctx = .ok rule ∧ x = m.total ctx rule e := by
  have hscore : m.toModel.score ctx e = (e.check ctx >>= fun rule => pure (m.total ctx rule e)) := rfl
  rw [hscore, except_bind_eq_ok]
  constructor
  · rintro ⟨rule, hrule, hx⟩
    cases hx
    exact ⟨rule, hrule, rfl⟩
  · rintro ⟨rule, hrule, rfl⟩
    exact ⟨rule, hrule, rfl⟩

theorem exists_score (h : m.toModel.score ctx e = .ok x) (p : Perceptron α) :
    ∃ y, p.toModel.score ctx e = .ok y := by
  obtain ⟨rule, hrule, _⟩ := score_eq_ok.mp h
  exact ⟨_, score_eq_ok.mpr ⟨rule, hrule, rfl⟩⟩

theorem exists_rule (h : m.toModel.score ctx e = .ok x) : ∃ rule, ctx.lookupRule e.rule = .ok rule := by
  obtain ⟨rule, hrule, _⟩ := score_eq_ok.mp h
  exact ⟨rule, Expansion.lookupRule_of_check hrule⟩

theorem score_eq_weigh (h : m.toModel.score ctx e = .ok x) {indices : List Nat}
    (hfeatures : m.features ctx e = .ok indices) : x = weigh m.weights indices := by
  obtain ⟨rule, hrule, rfl⟩ := score_eq_ok.mp h
  rw [features, Expansion.lookupRule_of_check hrule] at hfeatures
  cases hfeatures
  rfl

theorem exists_rules {t : Derivation} (h : m.toModel.scoreDerivation ctx t = .ok x) :
    ∃ steps, m.refiner.expansions ctx t = .ok steps ∧
      ∀ e ∈ steps, ∃ rule, ctx.lookupRule e.rule = .ok rule := by
  obtain ⟨steps, hsteps, hscore⟩ := except_bind_eq_ok.mp h
  refine ⟨steps, hsteps, fun e he => ?_⟩
  cases hx : m.toModel.score ctx e with
  | ok y => exact exists_rule hx
  | error err =>
    obtain ⟨err', herr⟩ := Model.scoreSteps_error_iff.mpr ⟨e, he, err, hx⟩
    cases hscore.symm.trans herr

omit [Scalar α] in
theorem expansions_eq (m p : Perceptron α) (ctx : Context) (t : Derivation) :
    m.refiner.expansions ctx t = p.refiner.expansions ctx t := by
  have hwalk : m.refiner.walk ctx t = p.refiner.walk ctx t :=
    Refiner.walk_congr m.refiner p.refiner rfl rfl rfl ctx t
  rw [Refiner.expansions, Refiner.expansions, hwalk]

end Perceptron

namespace FineChart

variable {α : Type} [Scalar α] {f : FineChart α} {m : Perceptron α}

theorem Built.rescore {item : CoarseItem} {site : Site} {e : FineEdge α}
    (h : f.Built m.toModel item site e) (p : Perceptron α) :
    ∃ e', e'.step = e.step ∧ f.Built p.toModel item site e' := by
  cases h with
  | lexical hstep hsite hx =>
    obtain ⟨y, hy⟩ := Perceptron.exists_score hx p
    exact ⟨⟨_, y, _⟩, rfl, .lexical hstep hsite hy⟩
  | unary hstep hchild hsite hx =>
    obtain ⟨y, hy⟩ := Perceptron.exists_score hx p
    exact ⟨⟨_, y, _⟩, rfl, .unary hstep hchild hsite hy⟩
  | binary hstep hl hr hsite hx =>
    obtain ⟨y, hy⟩ := Perceptron.exists_score hx p
    exact ⟨⟨_, y, _⟩, rfl, .binary hstep hl hr hsite hy⟩

theorem Built.localScore_eq {M : Model α} {item : CoarseItem} {site : Site} {e : FineEdge α}
    (h : f.Built M item site e) : M.score f.context (f.expansionOf site e.step) = .ok e.localScore := by
  cases h with
  | lexical _ _ hx => exact hx
  | unary _ hchild _ hx =>
    simp only [expansionOf, siteOf, hchild.1, Option.elim_some]
    exact hx
  | binary _ hl hr _ hx =>
    simp only [expansionOf, siteOf, hl.1, hr.1, Option.elim_some]
    exact hx

end FineChart

theorem Model.Inside.rescore {α : Type} [Scalar α] {m : Perceptron α} {ctx : Context} {t : Derivation}
    {site : Site} {y : α} (h : m.toModel.Inside ctx t site y) (p : Perceptron α) :
    ∃ z, p.toModel.Inside ctx t site z := by
  induction h with
  | leaf hsite hx =>
    obtain ⟨z, hz⟩ := Perceptron.exists_score hx p
    exact ⟨_, .leaf hsite hz⟩
  | unary _ hsite hx ih =>
    obtain ⟨_, hchild⟩ := ih
    obtain ⟨z, hz⟩ := Perceptron.exists_score hx p
    exact ⟨_, .unary hchild hsite hz⟩
  | binary _ _ hsite hx ihl ihr =>
    obtain ⟨_, hl⟩ := ihl
    obtain ⟨_, hr⟩ := ihr
    obtain ⟨z, hz⟩ := Perceptron.exists_score hx p
    exact ⟨_, .binary hl hr hsite hz⟩

theorem Perceptron.exists_scoreDerivation {m : Perceptron EReal} {ctx : Context} {t : Derivation}
    {z : EReal} (h : m.toModel.scoreDerivation ctx t = .ok z) (p : Perceptron EReal) :
    ∃ z', p.toModel.scoreDerivation ctx t = .ok z' := by
  obtain ⟨site, y, rule, x, hinside, htop, hx, _⟩ := Model.scoreDerivation_eq_ok.mp h
  obtain ⟨y', hinside'⟩ := hinside.rescore p
  obtain ⟨x', hx'⟩ := Perceptron.exists_score hx p
  exact ⟨_, Model.scoreDerivation_eq_ok.mpr ⟨site, y', rule, x', hinside', htop, hx', rfl⟩⟩

theorem FineChart.Under.rescore {α : Type} [Scalar α] {f : FineChart α} {m : Perceptron α} {i : FineId}
    {t : Derivation} {y : α} (h : f.Under m.toModel i t y) (p : Perceptron α) :
    ∃ z, f.Under p.toModel i t z := by
  obtain ⟨x, hx, hpacks, hinside⟩ := h
  obtain ⟨z, hz⟩ := hinside.rescore p
  exact ⟨z, x, hx, hpacks, hz⟩

namespace FineChart

theorem siteOf_eq {α : Type} {f : FineChart α} {i : FineId} {x : FineItem α} (hx : f.item? i = some x) :
    f.siteOf i = x.site := by
  rw [siteOf, hx, Option.elim_some]

variable {c : CoarseChart EReal} {tags : Supertags EReal} {f : FineChart EReal} {m : Perceptron EReal}

section

variable (hf : Finished c m.toModel .all f) (hc : c.Saturated tags) (hg : c.grammar.Indexed) {i : FineId}
  {x : FineItem EReal}

include hf hc hg

/-- An edge over derivations of its children makes one of its item, with the score that another model
gives it. -/
theorem under_edge (hx : f.item? i = some x) {e : FineEdge EReal} (he : e ∈ x.edges)
    (p : Perceptron EReal) {picked : List (Parse EReal)}
    (hpicked : List.Forall₂ (fun child q => f.Under p.toModel child q.tree q.score) e.step.children picked) :
    ∃ z, p.toModel.score f.context (f.expansionOf x.site e.step) = .ok z ∧
      f.Under p.toModel i (e.step.node x.site (picked.map Parse.tree))
        (z + (picked.map Parse.score).sum) := by
  obtain ⟨span, source, ps, hspan, hmem, hmade⟩ := hf.sound.exists_source hx
  obtain ⟨e', hstep, hbuilt⟩ := (hmade.built_of_mem he).1.rescore p
  rw [← hstep] at hpicked
  have hunder := hbuilt.under hf.sound.coarse_eq hc hg hx hspan hmem hpicked
  have hlocal := hbuilt.localScore_eq
  rw [hstep] at hunder hlocal
  rw [total_eq] at hunder
  exact ⟨_, hlocal, hunder⟩

/-- A derivation under an item goes through one of its edges, also under another model. -/
theorem edge_of_under (hx : f.item? i = some x) {p : Perceptron EReal} {t : Derivation} {y : EReal}
    (h : f.Under p.toModel i t y) : ∃ e ∈ x.edges, ∃ z, ∃ picked : List (Parse EReal),
      p.toModel.score f.context (f.expansionOf x.site e.step) = .ok z ∧
      List.Forall₂ (fun child q => f.Under p.toModel child q.tree q.score) e.step.children picked ∧
      y = z + (picked.map Parse.score).sum := by
  -- the edges are those under the chart's own model, so the derivation is scored by this model first
  obtain ⟨y', h'⟩ := h.rescore m
  obtain ⟨e, he, ps, hps, rfl, -⟩ := exists_edge_of_under hf hc hg hx h'
  obtain ⟨picked, hpicked, htrees⟩ :=
    exists_parses (List.forall₂_map_right_iff.mpr (hps.imp fun _ _ hq => hq.rescore p))
  obtain ⟨z, hz, hunder⟩ := under_edge hf hc hg hx he p hpicked
  rw [htrees] at hunder
  obtain ⟨_, hx', _, hinside⟩ := h
  obtain ⟨_, hx'', _, hinside'⟩ := hunder
  cases hx'.symm.trans hx''
  exact ⟨e, he, z, picked, hz, hpicked, (hinside.unique hinside').2⟩

end

end FineChart

namespace Perceptron

variable {p : Perceptron EReal} (hw : ∀ x ∈ p.weights, x ≠ ⊥) {ctx : Context}

include hw

theorem weight_ne_bot (feature : Nat) : p.weight feature ≠ ⊥ := by
  unfold weight
  cases hx : p.weights[feature]? with
  | none => simp
  | some x => exact hw x (Array.mem_of_getElem? hx)

theorem score_ne_bot {e : Expansion} {x : EReal} (h : p.toModel.score ctx e = .ok x) : x ≠ ⊥ := by
  obtain ⟨rule, _, rfl⟩ := score_eq_ok.mp h
  rw [total, ExactScalar.sum_eq]
  refine ExactScalar.sum_ne_bot fun y hy => ?_
  obtain ⟨feature, _, rfl⟩ := List.mem_map.mp hy
  exact weight_ne_bot hw feature

/-- No derivation is impossible if no weight is minus infinity. -/
theorem inside_ne_bot {t : Derivation} {site : Site} {y : EReal} (h : p.toModel.Inside ctx t site y) :
    y ≠ ⊥ := by
  induction h with
  | leaf _ hx => exact score_ne_bot hw hx
  | unary _ _ hx ih =>
    rw [ExactScalar.both_eq, ne_eq, EReal.add_eq_bot_iff, not_or]
    exact ⟨score_ne_bot hw hx, ih⟩
  | binary _ _ _ hx ihl ihr =>
    rw [ExactScalar.both_eq, ExactScalar.both_eq, ne_eq, EReal.add_eq_bot_iff, EReal.add_eq_bot_iff,
      not_or, not_or]
    exact ⟨score_ne_bot hw hx, ihl, ihr⟩

theorem scoreDerivation_ne_bot {t : Derivation} {z : EReal}
    (h : p.toModel.scoreDerivation ctx t = .ok z) : z ≠ ⊥ := by
  obtain ⟨site, y, rule, x, hinside, _, hx, rfl⟩ := Model.scoreDerivation_eq_ok.mp h
  rw [ne_eq, EReal.add_eq_bot_iff, not_or]
  exact ⟨score_ne_bot hw hx, inside_ne_bot hw hinside⟩

end Perceptron

end Categorial
