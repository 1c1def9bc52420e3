import Categorial.Model.Basic
import Categorial.Proofs.Except
import Categorial.Proofs.ExactScalar
set_option autoImplicit false

namespace Categorial

namespace Model

section

variable {α : Type} [Scalar α]

/-- The refined root of a derivation and its score, all of whose steps exist. -/
inductive Inside (m : Model α) (ctx : Context) : Derivation → Site → α → Prop where
  | leaf {step : Step} {span : Span} {site : Site} {x : α} :
      site = ⟨step.cat, span, m.refineLexical ctx step.cat span.start⟩ →
      m.score ctx (.lexical step.rule site) = .ok x → Inside m ctx (.leaf step span) site x
  | unary {step : Step} {span : Span} {t : Derivation} {child site : Site} {x y : α} :
      Inside m ctx t child y → site = ⟨step.cat, span, m.refineUnary ctx step.rule child⟩ →
      m.score ctx (.unary step.rule site child) = .ok x →
      Inside m ctx (.branch step span [t]) site (Scalar.both x y)
  | binary {step : Step} {span : Span} {l r : Derivation} {left right site : Site} {x y z : α} :
      Inside m ctx l left y → Inside m ctx r right z →
      site = ⟨step.cat, span, m.refineBinary ctx step.rule left right⟩ →
      m.score ctx (.binary step.rule site left right) = .ok x →
      Inside m ctx (.branch step span [l, r]) site (Scalar.both x (Scalar.both y z))

variable {m : Model α} {ctx : Context}

theorem Inside.unique {t : Derivation} {site : Site} {x : α} (h : m.Inside ctx t site x) :
    ∀ {site' : Site} {x' : α}, m.Inside ctx t site' x' → site = site' ∧ x = x' := by
  induction h with
  | leaf hsite hx =>
    rintro _ _ (⟨rfl, hx'⟩ | _ | _)
    subst hsite
    cases hx.symm.trans hx'
    exact ⟨rfl, rfl⟩
  | unary _ hsite hx ih =>
    rintro _ _ (_ | ⟨ht, rfl, hx'⟩ | _)
    obtain ⟨rfl, rfl⟩ := ih ht
    subst hsite
    cases hx.symm.trans hx'
    exact ⟨rfl, rfl⟩
  | binary _ _ hsite hx ihl ihr =>
    rintro _ _ (_ | _ | ⟨hl, hr, rfl, hx'⟩)
    obtain ⟨rfl, rfl⟩ := ihl hl
    obtain ⟨rfl, rfl⟩ := ihr hr
    subst hsite
    cases hx.symm.trans hx'
    exact ⟨rfl, rfl⟩

theorem scoreSteps_append (m : Model α) (ctx : Context) (es es' : List Expansion) (total : α) :
    m.scoreSteps ctx total (es ++ es') =
      m.scoreSteps ctx total es >>= fun total => m.scoreSteps ctx total es' := by
  induction es generalizing total with
  | nil => rfl
  | cons e es ih =>
    simp only [List.cons_append, scoreSteps]
    cases m.score ctx e with
    | error _ => rfl
    | ok x => exact ih _

theorem scoreSteps_append_singleton {es : List Expansion} {e : Expansion} {total z : α} :
    m.scoreSteps ctx total (es ++ [e]) = .ok z ↔
      ∃ y x, m.scoreSteps ctx total es = .ok y ∧ m.score ctx e = .ok x ∧ z = Scalar.both y x := by
  rw [scoreSteps_append, except_bind_eq_ok]
  constructor
  · rintro ⟨y, hy, h⟩
    obtain ⟨x, hx, h⟩ := except_bind_eq_ok.mp h
    cases h
    exact ⟨y, x, hy, hx, rfl⟩
  · rintro ⟨y, x, hy, hx, rfl⟩
    exact ⟨y, hy, except_bind_eq_ok.mpr ⟨x, hx, rfl⟩⟩

theorem scoreSteps_error_iff {es : List Expansion} {total : α} :
    (∃ err, m.scoreSteps ctx total es = .error err) ↔ ∃ e ∈ es, ∃ err, m.score ctx e = .error err := by
  induction es generalizing total with
  | nil => simp [scoreSteps]
  | cons e es ih =>
    simp only [scoreSteps, List.mem_cons, exists_eq_or_imp]
    cases hx : m.score ctx e with
    | error err => simp [bind, Except.bind]
    | ok x => simpa [bind, Except.bind] using ih

theorem exists_scoreSteps_iff {es : List Expansion} {total : α} :
    (∃ x, m.scoreSteps ctx total es = .ok x) ↔ ∀ e ∈ es, ∃ x, m.score ctx e = .ok x := by
  induction es generalizing total with
  | nil => simp [scoreSteps]
  | cons e es ih =>
    simp only [scoreSteps, List.forall_mem_cons, except_bind_eq_ok]
    constructor
    · rintro ⟨y, x, hx, hrest⟩
      exact ⟨⟨x, hx⟩, ih.mp ⟨y, hrest⟩⟩
    · rintro ⟨⟨x, hx⟩, hrest⟩
      obtain ⟨y, hy⟩ := (@ih (Scalar.both total x)).mpr hrest
      exact ⟨y, x, hx, hy⟩

def Rejects (m : Model α) (ctx : Context) (t : Derivation) : Prop :=
  ∃ steps, m.expansions ctx t = .ok steps ∧ ∃ e ∈ steps, ∃ err, m.score ctx e = .error err

/-- A derivation that can be taken apart fails to have a score only by such a step. -/
theorem scoreDerivation_error_iff {t : Derivation} (h : ∃ steps, m.expansions ctx t = .ok steps) :
    (∃ err, m.scoreDerivation ctx t = .error err) ↔ m.Rejects ctx t := by
  obtain ⟨steps, hsteps⟩ := h
  have hscore : m.scoreDerivation ctx t = m.scoreSteps ctx Scalar.zero steps := by
    rw [scoreDerivation, hsteps]
    rfl
  rw [hscore, scoreSteps_error_iff]
  constructor
  · exact fun hrej => ⟨steps, hsteps, hrej⟩
  · rintro ⟨steps', hsteps', hrej⟩
    cases hsteps.symm.trans hsteps'
    exact hrej

theorem exists_inside {t : Derivation} : ∀ {site : Site} {es : List Expansion} {total z : α},
    m.walk ctx t = .ok (site, es) → m.scoreSteps ctx total es = .ok z →
    ∃ y, m.Inside ctx t site y := by
  induction t using Derivation.induction with
  | leaf step span =>
    intro site es total z hwalk hscore
    cases hwalk
    have hscore : m.scoreSteps ctx total ([] ++ [_]) = .ok z := hscore
    obtain ⟨_, x, _, hx, _⟩ := scoreSteps_append_singleton.mp hscore
    exact ⟨x, .leaf rfl hx⟩
  | branch step span children ih =>
    intro site es total z hwalk hscore
    match children with
    | [] => cases hwalk
    | [t] =>
      obtain ⟨⟨child, below⟩, ht, hwalk⟩ := except_bind_eq_ok.mp hwalk
      cases hwalk
      obtain ⟨_, x, hbelow, hx, _⟩ := scoreSteps_append_singleton.mp hscore
      obtain ⟨y, hy⟩ := ih t (by simp) ht hbelow
      exact ⟨_, .unary hy rfl hx⟩
    | [l, r] =>
      obtain ⟨⟨left, belowLeft⟩, hl, hwalk⟩ := except_bind_eq_ok.mp hwalk
      obtain ⟨⟨right, belowRight⟩, hr, hwalk⟩ := except_bind_eq_ok.mp hwalk
      cases hwalk
      obtain ⟨_, x, hbelow, hx, _⟩ := scoreSteps_append_singleton.mp hscore
      rw [scoreSteps_append] at hbelow
      obtain ⟨_, hbelowLeft, hbelowRight⟩ := except_bind_eq_ok.mp hbelow
      obtain ⟨y, hy⟩ := ih l (by simp) hl hbelowLeft
      obtain ⟨z, hz⟩ := ih r (by simp) hr hbelowRight
      exact ⟨_, .binary hy hz rfl hx⟩
    | _ :: _ :: _ :: _ => cases hwalk

end

variable {m : Model EReal} {ctx : Context}

theorem Inside.walk {t : Derivation} {site : Site} {y : EReal} (h : m.Inside ctx t site y) :
    ∃ es, m.walk ctx t = .ok (site, es) ∧
      ∀ total, m.scoreSteps ctx total es = .ok (total + y) := by
  induction h with
  | leaf hsite hx =>
    subst hsite
    refine ⟨_, rfl, fun total => ?_⟩
    rw [← List.nil_append [_], scoreSteps_append_singleton]
    exact ⟨total, _, rfl, hx, by simp⟩
  | @unary _ _ _ _ _ x y _ hsite hx ih =>
    obtain ⟨below, hwalk, hbelow⟩ := ih
    subst hsite
    refine ⟨_, by rw [Refiner.walk, hwalk]; rfl, fun total => ?_⟩
    rw [scoreSteps_append_singleton]
    exact ⟨_, _, hbelow total, hx, by simp [add_assoc, add_comm x]⟩
  | @binary _ _ _ _ _ _ _ x y z _ _ hsite hx ihl ihr =>
    obtain ⟨belowLeft, hl, hbelowLeft⟩ := ihl
    obtain ⟨belowRight, hr, hbelowRight⟩ := ihr
    subst hsite
    refine ⟨_, by rw [Refiner.walk, hl]; simp only [bind, Except.bind, hr]; rfl, fun total => ?_⟩
    rw [scoreSteps_append_singleton]
    refine ⟨total + y + z, x, ?_, hx, by simp [add_assoc, add_comm x]⟩
    rw [scoreSteps_append, hbelowLeft]
    exact hbelowRight _

theorem scoreDerivation_eq_ok {t : Derivation} {z : EReal} :
    m.scoreDerivation ctx t = .ok z ↔ ∃ site y rule x, m.Inside ctx t site y ∧
      ctx.grammar.topRule? site.cat = some rule ∧ m.score ctx (.top rule site) = .ok x ∧
      z = x + y := by
  unfold scoreDerivation Refiner.expansions
  constructor
  · intro h
    obtain ⟨steps, hsteps, hscore⟩ := except_bind_eq_ok.mp h
    obtain ⟨⟨site, es⟩, hwalk, hsteps⟩ := except_bind_eq_ok.mp hsteps
    simp only at hsteps
    cases htop : ctx.grammar.topRule? site.cat with
    | none =>
      rw [htop] at hsteps
      cases hsteps
    | some rule =>
      rw [htop] at hsteps
      cases hsteps
      obtain ⟨y, x, hy, hx, rfl⟩ := scoreSteps_append_singleton.mp hscore
      obtain ⟨y', hinside⟩ := exists_inside hwalk hy
      obtain ⟨es', hwalk', hes'⟩ := hinside.walk
      cases hwalk.symm.trans hwalk'
      cases hy.symm.trans (hes' Scalar.zero)
      exact ⟨site, y', rule, x, hinside, htop, hx, by simp [add_comm]⟩
  · rintro ⟨site, y, rule, x, hinside, htop, hx, rfl⟩
    obtain ⟨es, hwalk, hes⟩ := hinside.walk
    refine except_bind_eq_ok.mpr ⟨es ++ [.top rule site], ?_, ?_⟩
    · rw [hwalk]
      simp [bind, Except.bind, htop]
    · exact scoreSteps_append_singleton.mpr ⟨_, x, hes _, hx, by simp [add_comm]⟩

end Model

end Categorial
