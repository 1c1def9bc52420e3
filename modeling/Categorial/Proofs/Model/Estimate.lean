import Categorial.Model.Generative
import Categorial.Proofs.Checked
set_option autoImplicit false

namespace Categorial

/-- A step of a gold derivation, with its rule and its sentence. -/
structure GoldStep where
  context : Context
  rule : Rule
  expansion : Expansion

/-- The steps of a derivation, if it has them and their rules exist. -/
def Refiner.goldSteps? (m : Refiner) (ctx : Context) (t : Derivation) : Option (List GoldStep) :=
  (m.expansions ctx t).toOption.bind fun es =>
    es.mapM fun e => (ctx.grammar.rule? e.rule).map fun rule => ⟨ctx, rule, e⟩

namespace GenerativeModel

def addStep (m : GenerativeModel) (x : GoldStep) : GenerativeModel :=
  let (events, vocabulary) :=
    (eventsOf m.conditioning m.distance .grow x.context x.rule x.expansion).run m.vocabulary
  let m := events.foldl observe { m with vocabulary }
  match x.expansion with
  | .top _ _ => m
  | e => { m with
      prior := m.prior.insert e.site.cat (m.prior.getD e.site.cat 0 + 1)
      priorTotal := m.priorTotal + 1 }

/-- What a model is made for. No counting changes it. -/
structure SameKind (m m' : GenerativeModel) : Prop where
  grammarId : m'.grammarId = m.grammarId
  conditioning : m'.conditioning = m.conditioning
  distance : m'.distance = m.distance

theorem SameKind.trans {m m' m'' : GenerativeModel} (h : m.SameKind m') (h' : m'.SameKind m'') :
    m.SameKind m'' where
  grammarId := h'.grammarId.trans h.grammarId
  conditioning := h'.conditioning.trans h.conditioning
  distance := h'.distance.trans h.distance

theorem sameKind_observe (m : GenerativeModel) (e : Event) : m.SameKind (m.observe e) := by
  unfold observe
  cases e.choice <;> exact ⟨rfl, rfl, rfl⟩

theorem sameKind_foldl_observe (events : List Event) (m : GenerativeModel) :
    m.SameKind (events.foldl observe m) := by
  induction events generalizing m with
  | nil => exact ⟨rfl, rfl, rfl⟩
  | cons e events ih => exact (sameKind_observe m e).trans (ih _)

theorem sameKind_addStep (m : GenerativeModel) (x : GoldStep) : m.SameKind (m.addStep x) := by
  obtain ⟨ctx, rule, e⟩ := x
  have hevents : ∀ (events : List Event) vocabulary,
      m.SameKind (events.foldl observe { m with vocabulary }) := by
    intro events vocabulary
    have hvocabulary : m.SameKind { m with vocabulary } := ⟨rfl, rfl, rfl⟩
    exact hvocabulary.trans (sameKind_foldl_observe events _)
  cases e <;> exact (hevents _ _).trans ⟨rfl, rfl, rfl⟩

theorem sameKind_foldl_addStep (steps : List GoldStep) (m : GenerativeModel) :
    m.SameKind (steps.foldl addStep m) := by
  induction steps generalizing m with
  | nil => exact ⟨rfl, rfl, rfl⟩
  | cons x steps ih => exact (sameKind_addStep m x).trans (ih _)

theorem SameKind.refiner_eq {m m' : GenerativeModel} (h : m.SameKind m') : m'.refiner = m.refiner := by
  obtain ⟨hid, hconditioning, hdistance⟩ := h
  cases m
  cases m'
  cases hid
  cases hconditioning
  cases hdistance
  rfl

theorem distribution_observe (m : GenerativeModel) (e : Event) (choice : Choice) :
    (m.observe e).distribution choice =
      if choice = e.choice then (m.distribution choice).observe e.context e.outcome
      else m.distribution choice := by
  unfold observe
  cases e.choice <;> cases choice <;> rfl

theorem distribution_foldl_observe {m m' : GenerativeModel} {choice : Choice}
    (h : m'.distribution choice = m.distribution choice) (events : List Event) :
    (events.foldl observe m').distribution choice = (events.foldl observe m).distribution choice := by
  induction events generalizing m m' with
  | nil => exact h
  | cons e events ih =>
    refine ih ?_
    rw [distribution_observe, distribution_observe, h]

theorem distribution_addStep (m : GenerativeModel) (x : GoldStep) (choice : Choice) :
    (m.addStep x).distribution choice =
      (((eventsOf m.conditioning m.distance .grow x.context x.rule x.expansion).run m.vocabulary).1.foldl
        observe m).distribution choice := by
  obtain ⟨ctx, rule, e⟩ := x
  have hvocabulary : ∀ (events : List Event) vocabulary,
      (events.foldl observe { m with vocabulary }).distribution choice =
        (events.foldl observe m).distribution choice := fun events vocabulary =>
    distribution_foldl_observe (by cases choice <;> rfl) events
  cases e <;> exact (by cases choice <;> rfl : _ = _).trans (hvocabulary _ _)

theorem countStep_eq (ctx : Context) (m : GenerativeModel) (e : Expansion) :
    countStep ctx m e = match ctx.grammar.rule? e.rule with
      | none => .error (.unlicensed (.rule e.rule))
      | some rule => .ok (m.addStep ⟨ctx, rule, e⟩) := by
  unfold countStep
  cases ctx.grammar.rule? e.rule with
  | none => rfl
  | some rule => cases e <;> rfl

theorem countSteps_ok_iff {ctx : Context} {es : List Expansion} {m m' : GenerativeModel} :
    countSteps ctx m es = (m', .ok ()) ↔ ∃ steps : List GoldStep,
      (es.mapM fun e => (ctx.grammar.rule? e.rule).map fun rule => (⟨ctx, rule, e⟩ : GoldStep)) =
        some steps ∧ m' = steps.foldl addStep m := by
  induction es generalizing m with
  | nil => simp [countSteps, eq_comm]
  | cons e es ih =>
    rw [countSteps, countStep_eq]
    cases hrule : ctx.grammar.rule? e.rule with
    | none => simp [List.mapM_cons, hrule]
    | some rule =>
      simp only [ih, List.mapM_cons, hrule, Option.map_some, bind, Option.bind_some, pure,
        Option.bind_eq_some_iff, Option.some.injEq]
      constructor
      · rintro ⟨steps, hsteps, rfl⟩
        exact ⟨_, ⟨steps, hsteps, rfl⟩, rfl⟩
      · rintro ⟨_, ⟨steps, hsteps, rfl⟩, rfl⟩
        exact ⟨steps, hsteps, rfl⟩

theorem count_ok_iff {ctx : Context} {t : Derivation} {m m' : GenerativeModel}
    (hm : m.grammarId = ctx.grammar.id) : m.count ctx t = (m', .ok ()) ↔
      ∃ steps, m.refiner.goldSteps? ctx t = some steps ∧ m' = steps.foldl addStep m := by
  unfold count Refiner.goldSteps?
  simp only [Grammar.check, hm, if_true]
  cases m.refiner.expansions ctx t with
  | error cause => simp [Except.toOption]
  | ok es => simpa [Except.toOption] using countSteps_ok_iff

/-- Counting goes on from a model of the grammar if all derivations have their steps, and then these are
counted. -/
theorem foldlM_count_ok_iff {g : Grammar} {corpus : List (Sentence × Derivation)} :
    ∀ {m₀ m : GenerativeModel}, m₀.grammarId = g.id →
      (corpus.foldlM (fun m (s, t) => match m.count ⟨g, s⟩ t with
        | (m, .ok ()) => .ok m
        | (_, .error cause) => .error cause) m₀ = (.ok m : Except Error GenerativeModel) ↔
        ∃ steps : List (List GoldStep),
          (corpus.mapM fun entry => m₀.refiner.goldSteps? ⟨g, entry.1⟩ entry.2) = some steps ∧
            m = steps.flatten.foldl addStep m₀) := by
  induction corpus with
  | nil => simp [pure, Except.pure, eq_comm]
  | cons entry corpus ih =>
    obtain ⟨s, t⟩ := entry
    intro m₀ m hm
    have hcount : ∀ m', m₀.count ⟨g, s⟩ t = (m', .ok ()) ↔ ∃ steps : List GoldStep,
        m₀.refiner.goldSteps? ⟨g, s⟩ t = some steps ∧ m' = steps.foldl addStep m₀ :=
      fun _ => count_ok_iff hm
    rw [List.foldlM_cons, except_bind_eq_ok]
    simp only [List.mapM_cons, bind, pure, Option.bind_eq_some_iff, Option.some.injEq]
    constructor
    · rintro ⟨m₁, hfirst, hrest⟩
      have hfirst : m₀.count ⟨g, s⟩ t = (m₁, .ok ()) := by
        split at hfirst
        · rename_i heq
          cases hfirst
          exact heq
        · cases hfirst
      obtain ⟨steps, hsteps, rfl⟩ := (hcount m₁).mp hfirst
      have hkind := sameKind_foldl_addStep steps m₀
      obtain ⟨stepss, hstepss, rfl⟩ := (ih (hkind.grammarId.trans hm)).mp hrest
      rw [hkind.refiner_eq] at hstepss
      exact ⟨_, ⟨steps, hsteps, stepss, hstepss, rfl⟩, by simp⟩
    · rintro ⟨_, ⟨steps, hsteps, stepss, hstepss, rfl⟩, rfl⟩
      have hkind := sameKind_foldl_addStep steps m₀
      refine ⟨steps.foldl addStep m₀, ?_, (ih (hkind.grammarId.trans hm)).mpr ⟨stepss, ?_, ?_⟩⟩
      · rw [(hcount _).mpr ⟨steps, hsteps, rfl⟩]
      · rw [hkind.refiner_eq]
        exact hstepss
      · simp

theorem estimate_ok_iff {g : Grammar} {c : Conditioning} {distance : Bool}
    {corpus : List (Sentence × Derivation)} {m : GenerativeModel} :
    estimate g c distance corpus = .ok m ↔ ∃ steps : List (List GoldStep),
      (corpus.mapM fun entry => (untrained g c distance).refiner.goldSteps? ⟨g, entry.1⟩ entry.2) =
        some steps ∧ m = steps.flatten.foldl addStep (untrained g c distance) :=
  foldlM_count_ok_iff rfl

theorem exists_estimate {g : Grammar} (hg : g.Indexed)
    (hterminal : ∀ r ∈ g.rules, r.ruleType = .lexical → r.production = .terminal) (c : Conditioning)
    (distance : Bool) {corpus : List (Sentence × Derivation)}
    (hcorpus : ∀ entry ∈ corpus, g.Licenses (fun _ _ => True) entry.2 ∧
      g.isStart entry.2.step.cat = true) :
    ∃ m, estimate g c distance corpus = .ok m := by
  suffices h : ∃ steps : List (List GoldStep), (corpus.mapM fun entry =>
      (untrained g c distance).refiner.goldSteps? ⟨g, entry.1⟩ entry.2) = some steps by
    obtain ⟨steps, hsteps⟩ := h
    exact ⟨_, estimate_ok_iff.mpr ⟨steps, hsteps, rfl⟩⟩
  refine exists_mapM fun entry hentry => ?_
  obtain ⟨hlicensed, hstart⟩ := hcorpus entry hentry
  obtain ⟨es, hes, hchecked⟩ := hlicensed.expansions hg hterminal hstart
    (untrained g c distance).refiner entry.1
  obtain ⟨steps, hsteps⟩ : ∃ steps : List GoldStep,
      (es.mapM fun e => (g.rule? e.rule).map fun rule => (⟨⟨g, entry.1⟩, rule, e⟩ : GoldStep)) =
        some steps := by
    refine exists_mapM fun e he => ?_
    obtain ⟨r, hr⟩ := hchecked e he
    exact ⟨_, by rw [Expansion.rule_of_check hr]; rfl⟩
  exact ⟨steps, by simp [Refiner.goldSteps?, hes, Except.toOption, hsteps]⟩

theorem estimate_induction {g : Grammar} {c : Conditioning} {distance : Bool}
    {corpus : List (Sentence × Derivation)} {m : GenerativeModel} {P : GenerativeModel → Prop}
    (h : estimate g c distance corpus = .ok m) (hstart : P (untrained g c distance))
    (hstep : ∀ m x, P m → P (m.addStep x)) : P m := by
  obtain ⟨steps, _, rfl⟩ := estimate_ok_iff.mp h
  generalize untrained g c distance = m₀ at hstart
  induction steps.flatten generalizing m₀ with
  | nil => exact hstart
  | cons x steps ih => exact ih _ (hstep _ x hstart)

theorem estimate_sameKind {g : Grammar} {c : Conditioning} {distance : Bool}
    {corpus : List (Sentence × Derivation)} {m : GenerativeModel}
    (h : estimate g c distance corpus = .ok m) : (untrained g c distance).SameKind m := by
  obtain ⟨steps, _, rfl⟩ := estimate_ok_iff.mp h
  exact sameKind_foldl_addStep _ _

end GenerativeModel

end Categorial
