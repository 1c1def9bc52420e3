import Categorial.Double
import Categorial.Model.Generative
import Categorial.Model.Perceptron
import Categorial.Proofs.Checked
import Categorial.Proofs.Grammar.Obtained
import Categorial.Proofs.Inside
set_option autoImplicit false

/-!
Which derivations have a score. The models check each step and score what passes, so a derivation has a score if and
only if all its steps pass and a start category stands at its root. The checks let through more than can be derived:
they do not ask whether a binary step spans what its children span, nor whether the rule of a unary step is one of a
category.
-/

namespace Categorial

/-- The words that a model may look at when it scores the step: that of a leaf, and the heads. -/
def Expansion.reads : Expansion → List Nat
  | lexical _ site => (some site.span.start).toList ++ site.refinement.head.toList
  | unary _ parent _ => parent.refinement.head.toList
  | binary _ parent left right =>
    parent.refinement.head.toList ++ (left.refinement.head.toList ++ right.refinement.head.toList)
  | top _ root => root.refinement.head.toList

section

variable {g : Grammar} {s s' : Sentence}

theorem Context.word?_eq {position : Option Nat} (h : ∀ i ∈ position.toList, s'.token? i = s.token? i) :
    Context.word? ⟨g, s'⟩ position = Context.word? ⟨g, s⟩ position := by
  cases position with
  | none => rfl
  | some i => simp [word?, h i (by simp)]

theorem Context.pos?_eq {position : Option Nat} (h : ∀ i ∈ position.toList, s'.token? i = s.token? i) :
    Context.pos? ⟨g, s'⟩ position = Context.pos? ⟨g, s⟩ position := by
  cases position with
  | none => rfl
  | some i => simp [pos?, h i (by simp)]

theorem eventsOf_eq (c : Conditioning) (distance : Bool) (access : Access) (r : Rule) {e : Expansion}
    (h : ∀ i ∈ e.reads, s'.token? i = s.token? i) :
    eventsOf c distance access ⟨g, s'⟩ r e = eventsOf c distance access ⟨g, s⟩ r e := by
  cases e with
  | lexical rule site =>
    obtain ⟨hword, hhead⟩ := List.forall_mem_append.mp h
    simp only [eventsOf, extraContext, Context.word?_eq hword, Context.pos?_eq hword, Context.word?_eq hhead,
      Context.pos?_eq hhead]
  | unary rule parent child => simp only [eventsOf, extraContext, Context.word?_eq h, Context.pos?_eq h]
  | binary rule parent left right =>
    obtain ⟨hparent, hchildren⟩ := List.forall_mem_append.mp h
    obtain ⟨hleft, hright⟩ := List.forall_mem_append.mp hchildren
    rcases hside : r.headSide? with _ | _ | _
    all_goals
      simp only [eventsOf, extraContext, hside, Context.word?_eq hparent, Context.pos?_eq hparent,
        Context.word?_eq hleft, Context.pos?_eq hleft, Context.word?_eq hright, Context.pos?_eq hright]
  | top rule root => rfl

theorem features_eq (access : Access) (r : Rule) {e : Expansion} (h : ∀ i ∈ e.reads, s'.token? i = s.token? i) :
    e.features access ⟨g, s'⟩ r = e.features access ⟨g, s⟩ r := by
  cases e with
  | lexical rule site =>
    obtain ⟨hword, -⟩ := List.forall_mem_append.mp h
    simp only [Expansion.features, Context.word?_eq hword, Context.pos?_eq hword]
  | unary rule parent child => simp only [Expansion.features, Context.word?_eq h]
  | binary rule parent left right =>
    obtain ⟨hparent, hchildren⟩ := List.forall_mem_append.mp h
    obtain ⟨hleft, hright⟩ := List.forall_mem_append.mp hchildren
    rcases hside : r.headSide? with _ | _ | _
    all_goals
      simp only [Expansion.features, hside, Context.word?_eq hparent, Context.pos?_eq hparent,
        Context.word?_eq hleft, Context.pos?_eq hleft, Context.word?_eq hright, Context.pos?_eq hright]
  | top rule root => simp only [Expansion.features, Context.word?_eq h]

end

/-- A refinement that knows no words but those of the leaves, handed on from the children. -/
structure Refiner.Inherits (m : Refiner) : Prop where
  lexical : ∃ f : CatId → Nat → Refinement, (∀ ctx cat word, m.refineLexical ctx cat word = f cat word) ∧
    ∀ cat word i, i ∈ (f cat word).head.toList → i = word
  unary : ∀ ctx rule child, m.refineUnary ctx rule child = child.refinement
  binary : m.refineBinary = Context.childRefinement

theorem Refiner.Inherits.walk_eq {m : Refiner} (hm : m.Inherits) {g : Grammar} (s s' : Sentence) (t : Derivation) :
    m.walk ⟨g, s'⟩ t = m.walk ⟨g, s⟩ t := by
  obtain ⟨⟨f, hlexical, -⟩, hunary, hbinary⟩ := hm
  induction t using Derivation.induction with
  | leaf step span => simp only [walk, hlexical]
  | branch step span children ih =>
    rcases children with _ | ⟨t, _ | ⟨u, _ | _⟩⟩
    · rfl
    · simp only [walk, hunary, ih t (by simp)]
    · simp only [walk, hbinary, Context.childRefinement, ih t (by simp), ih u (by simp)]
    · rfl

theorem Context.mem_head_childRefinement {ctx : Context} {rule : RuleId} {left right : Site} {i : Nat}
    (h : i ∈ (ctx.childRefinement rule left right).head.toList) :
    i ∈ left.refinement.head.toList ∨ i ∈ right.refinement.head.toList := by
  unfold childRefinement headRefinement at h
  split at h
  · split at h
    · exact .inr h
    · exact .inl h
  · cases h

namespace Refiner.Inherits

variable {m : Refiner} {g : Grammar} {s : Sentence} {t : Derivation} {site : Site} {es : List Expansion}

theorem hasWord_of_walk (hm : m.Inherits) : ∀ {site : Site} {es : List Expansion},
    m.walk ⟨g, s⟩ t = .ok (site, es) → ∀ i ∈ site.refinement.head.toList, t.HasWord i := by
  obtain ⟨⟨f, hlexical, hhead⟩, hunary, hbinary⟩ := hm
  induction t using Derivation.induction with
  | leaf step span =>
    intro site es hwalk i hi
    cases hwalk
    exact ⟨(step, span), List.mem_singleton_self _, (hhead _ _ i (hlexical _ _ _ ▸ hi)).symm⟩
  | branch step span children ih =>
    intro site es hwalk i hi
    match children with
    | [t] =>
      obtain ⟨⟨child, below⟩, ht, hwalk⟩ := except_bind_eq_ok.mp hwalk
      cases hwalk
      exact (ih t (by simp) ht i (hunary _ _ _ ▸ hi)).branch (by simp)
    | [l, r] =>
      obtain ⟨⟨left, belowLeft⟩, hl, hwalk⟩ := except_bind_eq_ok.mp hwalk
      obtain ⟨⟨right, belowRight⟩, hr, hwalk⟩ := except_bind_eq_ok.mp hwalk
      cases hwalk
      rw [hbinary] at hi
      rcases Context.mem_head_childRefinement hi with hi | hi
      · exact (ih l (by simp) hl i hi).branch (by simp)
      · exact (ih r (by simp) hr i hi).branch (by simp)
    | [] => cases hwalk
    | _ :: _ :: _ :: _ => cases hwalk

theorem head_lt (hm : m.Inherits) {n : Nat} (hwalk : m.walk ⟨g, s⟩ t = .ok (site, es))
    (hleaves : ∀ leaf ∈ t.leaves, leaf.2.stop ≤ n) (hes : ∀ e ∈ es, ∃ r, e.check ⟨g, s⟩ = .ok r) :
    ∀ i ∈ site.refinement.head.toList, i < n := by
  intro i hi
  obtain ⟨leaf, hleaf, rfl⟩ := hm.hasWord_of_walk hwalk i hi
  have hlength := (Grammar.accepts_of_walk hwalk hes).1.length_eq leaf hleaf
  have hstop := hleaves leaf hleaf
  rw [Span.length] at hlength
  omega

end Refiner.Inherits

namespace Model

variable {α : Type} [Scalar α]

/-- The models of the library, whatever they were estimated or trained on. -/
inductive BuiltIn : Model α → Prop where
  | generative (m : GenerativeModel) : BuiltIn m.toModel
  | perceptron (m : Perceptron α) : BuiltIn m.toModel

namespace BuiltIn

variable {m : Model α} {g : Grammar} {s s' : Sentence}

theorem inherits (hm : m.BuiltIn) : m.toRefiner.Inherits := by
  cases hm with
  | generative m =>
    refine ⟨⟨m.refineLexical, fun _ _ _ => rfl, fun cat word i hi => ?_⟩, fun _ _ _ => rfl, rfl⟩
    simp only [GenerativeModel.refineLexical] at hi
    split at hi
    · exact List.mem_singleton.mp hi
    · cases hi
  | perceptron m => exact ⟨⟨_, fun _ _ _ => rfl, fun _ _ _ => List.mem_singleton.mp⟩, fun _ _ _ => rfl, rfl⟩

theorem score_eq (hm : m.BuiltIn) : ∃ total : Context → Rule → Expansion → α,
    (∀ ctx e, m.score ctx e = (e.check ctx).map fun r => total ctx r e) ∧
    ∀ (g : Grammar) (s s' : Sentence) (r : Rule) (e : Expansion), (∀ i ∈ e.reads, s'.token? i = s.token? i) →
      total ⟨g, s'⟩ r e = total ⟨g, s⟩ r e := by
  cases hm with
  | generative m =>
    refine ⟨m.total, fun ctx e => ?_, fun g s s' r e h => ?_⟩
    · cases hcheck : e.check ctx <;> simp [GenerativeModel.toModel, hcheck, Except.map, bind, Except.bind]
    · simp only [GenerativeModel.total, GenerativeModel.events, eventsOf_eq _ _ _ r h]
  | perceptron m =>
    refine ⟨m.total, fun ctx e => ?_, fun g s s' r e h => ?_⟩
    · cases hcheck : e.check ctx <;> simp [Perceptron.toModel, hcheck, Except.map, bind, Except.bind]
    · simp only [Perceptron.total, Perceptron.lookup, features_eq _ r h]

theorem exists_score_iff (hm : m.BuiltIn) {ctx : Context} {e : Expansion} :
    (∃ x, m.score ctx e = .ok x) ↔ ∃ r, e.check ctx = .ok r := by
  obtain ⟨total, htotal, -⟩ := hm.score_eq
  rw [htotal]
  cases e.check ctx <;> simp [Except.map]

theorem score_congr (hm : m.BuiltIn) {e : Expansion}
    (h : ∀ r, e.check ⟨g, s⟩ = .ok r → ∀ i ∈ e.reads, s'.token? i = s.token? i) :
    m.score ⟨g, s'⟩ e = m.score ⟨g, s⟩ e := by
  obtain ⟨total, htotal, hreads⟩ := hm.score_eq
  have hcheck : e.check ⟨g, s'⟩ = e.check ⟨g, s⟩ := rfl
  rw [htotal, htotal, hcheck]
  cases he : e.check ⟨g, s⟩ with
  | error _ => rfl
  | ok r => exact congrArg Except.ok (hreads g s s' r e (h r he))

theorem checked_of_scoreSteps (hm : m.BuiltIn) {ctx : Context} {es : List Expansion} {total : α}
    (h : ∃ x, m.scoreSteps ctx total es = .ok x) : ∀ e ∈ es, ∃ r, e.check ctx = .ok r :=
  fun e he => hm.exists_score_iff.mp (exists_scoreSteps_iff.mp h e he)

theorem exists_scoreDerivation_iff (hm : m.BuiltIn) (hg : g.Indexed) {t : Derivation} :
    (∃ x, m.scoreDerivation ⟨g, s⟩ t = .ok x) ↔ g.Accepts t ∧ g.isStart t.step.cat = true := by
  have hsteps {es : List Expansion} : (∃ x, m.scoreSteps ⟨g, s⟩ Scalar.zero es = .ok x) ↔
      ∀ e ∈ es, ∃ r, e.check ⟨g, s⟩ = .ok r := by
    rw [exists_scoreSteps_iff]
    exact forall₂_congr fun _ _ => hm.exists_score_iff
  constructor
  · rintro ⟨x, hx⟩
    obtain ⟨es, hes, hscore⟩ := except_bind_eq_ok.mp hx
    have hchecked := hsteps.mp ⟨x, hscore⟩
    obtain ⟨⟨site, below⟩, hwalk, hes⟩ := except_bind_eq_ok.mp hes
    simp only at hes
    split at hes
    · rename_i rule htop
      cases hes
      obtain ⟨haccepts, hcat, -⟩ := Grammar.accepts_of_walk hwalk fun e he => hchecked e (List.mem_append_left _ he)
      exact ⟨haccepts, by rw [Grammar.isStart, ← hcat, htop]; rfl⟩
    · cases hes
  · rintro ⟨haccepts, hstart⟩
    obtain ⟨es, hes, hchecked⟩ := haccepts.expansions hg hstart m.toRefiner s
    obtain ⟨x, hx⟩ := hsteps.mpr hchecked
    exact ⟨x, except_bind_eq_ok.mpr ⟨es, hes, hx⟩⟩

theorem scoreSteps_append_eq {ctx ctx' : Context} {es es' : List Expansion} {total : α}
    (h : m.scoreSteps ctx' total es = m.scoreSteps ctx total es)
    (h' : (∃ x, m.scoreSteps ctx total es = .ok x) →
      ∀ y, m.scoreSteps ctx' y es' = m.scoreSteps ctx y es') :
    m.scoreSteps ctx' total (es ++ es') = m.scoreSteps ctx total (es ++ es') := by
  rw [scoreSteps_append, scoreSteps_append, h]
  cases hes : m.scoreSteps ctx total es with
  | error _ => rfl
  | ok x => exact h' ⟨x, hes⟩ x

theorem scoreSteps_singleton_eq (hm : m.BuiltIn) {e : Expansion} {n : Nat}
    (hagree : ∀ i < n, s'.token? i = s.token? i) (h : ∀ r, e.check ⟨g, s⟩ = .ok r → ∀ i ∈ e.reads, i < n) (y : α) :
    m.scoreSteps ⟨g, s'⟩ y [e] = m.scoreSteps ⟨g, s⟩ y [e] := by
  rw [scoreSteps, scoreSteps, hm.score_congr fun r hr i hi => hagree i (h r hr i hi)]
  rfl

/-- By induction on the tree: before a step is scored, all those below it have passed, so that their heads are words of
the sentence. -/
theorem scoreSteps_walk (hm : m.BuiltIn) {n : Nat} (hagree : ∀ i < n, s'.token? i = s.token? i) {t : Derivation} :
    ∀ {site : Site} {es : List Expansion}, m.walk ⟨g, s⟩ t = .ok (site, es) →
      (∀ leaf ∈ t.leaves, leaf.2.stop ≤ n) → ∀ total : α,
        m.scoreSteps ⟨g, s'⟩ total es = m.scoreSteps ⟨g, s⟩ total es := by
  have hinherits := hm.inherits
  obtain ⟨⟨f, hlexical, hhead⟩, hunary, hbinary⟩ := hm.inherits
  induction t using Derivation.induction with
  | leaf step span =>
    intro site es hwalk hleaves total
    cases hwalk
    refine hm.scoreSteps_singleton_eq hagree (fun r hr i hi => ?_) total
    have hfits := (Expansion.fits_of_check hr).2
    simp only [Expansion.fits, Bool.and_eq_true, beq_iff_eq, Span.length] at hfits
    have hstop := hleaves (step, span) (List.mem_singleton_self _)
    simp only at hstop
    have hi : i = span.start := by
      rcases List.mem_append.mp hi with hi | hi
      · exact List.mem_singleton.mp hi
      · exact hhead _ _ i (hlexical _ _ _ ▸ hi)
    omega
  | branch step span children ih =>
    intro site es hwalk hleaves total
    have hchild {t : Derivation} (ht : t ∈ children) : ∀ leaf ∈ t.leaves, leaf.2.stop ≤ n := fun leaf hleaf =>
      hleaves leaf (Derivation.mem_leavesOf.mpr ⟨t, ht, hleaf⟩)
    rcases children with _ | ⟨t, _ | ⟨u, _ | _⟩⟩
    · cases hwalk
    · obtain ⟨⟨child, below⟩, ht, hwalk⟩ := except_bind_eq_ok.mp hwalk
      cases hwalk
      refine scoreSteps_append_eq (ih t (by simp) ht (hchild (by simp)) total) fun hok =>
        hm.scoreSteps_singleton_eq hagree fun _ _ i hi => ?_
      exact hinherits.head_lt ht (hchild (by simp)) (hm.checked_of_scoreSteps hok) i (hunary _ _ _ ▸ hi)
    · obtain ⟨⟨left, belowLeft⟩, ht, hwalk⟩ := except_bind_eq_ok.mp hwalk
      obtain ⟨⟨right, belowRight⟩, hu, hwalk⟩ := except_bind_eq_ok.mp hwalk
      cases hwalk
      refine scoreSteps_append_eq (scoreSteps_append_eq (ih t (by simp) ht (hchild (by simp)) total) fun _ =>
        ih u (by simp) hu (hchild (by simp))) fun hok => hm.scoreSteps_singleton_eq hagree fun _ _ i hi => ?_
      have hchecked := hm.checked_of_scoreSteps hok
      have hleft : ∀ i ∈ left.refinement.head.toList, i < n :=
        hinherits.head_lt ht (hchild (by simp)) fun e he => hchecked e (List.mem_append_left _ he)
      have hright : ∀ i ∈ right.refinement.head.toList, i < n :=
        hinherits.head_lt hu (hchild (by simp)) fun e he => hchecked e (List.mem_append_right _ he)
      rcases List.mem_append.mp hi with hi | hi
      · rw [hbinary] at hi
        exact (Context.mem_head_childRefinement hi).elim (hleft i) (hright i)
      · exact (List.mem_append.mp hi).elim (hleft i) (hright i)
    · cases hwalk

theorem scoreDerivation_eq (hm : m.BuiltIn) {t : Derivation} (hleaves : ∀ leaf ∈ t.leaves, leaf.2.stop ≤ s.length)
    (hagree : ∀ i < s.length, s'.token? i = s.token? i) :
    m.scoreDerivation ⟨g, s'⟩ t = m.scoreDerivation ⟨g, s⟩ t := by
  simp only [scoreDerivation, Refiner.expansions, hm.inherits.walk_eq s s' t]
  cases hwalk : m.walk ⟨g, s⟩ t with
  | error _ => rfl
  | ok walked =>
    obtain ⟨site, es⟩ := walked
    simp only [bind, Except.bind]
    cases g.topRule? site.cat with
    | none => rfl
    | some rule =>
      refine scoreSteps_append_eq (hm.scoreSteps_walk hagree hwalk hleaves _) fun hok =>
        hm.scoreSteps_singleton_eq hagree fun _ _ => ?_
      exact hm.inherits.head_lt hwalk hleaves (hm.checked_of_scoreSteps hok)

end BuiltIn

end Model

namespace Grammar

variable {g : Grammar} {t : Derivation}

/-- Every step can exist. A leaf is one word under a lexical rule, a unary step has the span of its child under a rule
of that kind, and a binary one joins two phrases that meet; and the categories are those of the rule. -/
inductive Possible (g : Grammar) : Derivation → Prop where
  | leaf {step : Step} {span : Span} :
      (∃ r, g.rule? step.rule = some r ∧ r.ruleType = .lexical ∧ r.production = .terminal ∧ r.result = step.cat) →
      span.length = 1 → Possible g (.leaf step span)
  | unary {step : Step} {span : Span} {t : Derivation} : Possible g t → g.UnaryRule step.rule t.step.cat step.cat →
      span = t.span → Possible g (.branch step span [t])
  | binary {step : Step} {span : Span} {left right : Derivation} : Possible g left → Possible g right →
      (∃ r, g.rule? step.rule = some r ∧ r.ruleType.isBinary = true ∧
        r.production = .binary left.step.cat right.step.cat ∧ r.result = step.cat) →
      left.span.stop = right.span.start → span = left.span.join right.span →
      Possible g (.branch step span [left, right])

structure Unchecked (g : Grammar) (t : Derivation) : Prop where
  join : ∀ {step : Step} {span : Span} {left right : Derivation}, (Derivation.branch step span [left, right]).Part t →
    span = left.span.join right.span
  unary : ∀ {step : Step} {span : Span} {child : Derivation} {r : Rule}, (Derivation.branch step span [child]).Part t →
    g.rule? step.rule = some r → r.ruleType = .unary

theorem Unchecked.child {step : Step} {span : Span} {children : List Derivation}
    (h : g.Unchecked (.branch step span children)) (ht : t ∈ children) : g.Unchecked t :=
  ⟨fun hpart => h.join (.child ht hpart), fun hpart => h.unary (.child ht hpart)⟩

theorem Possible.accepts (h : g.Possible t) : g.Accepts t := by
  induction h with
  | leaf hrule hspan =>
    obtain ⟨r, hr, -, hproduction, hresult⟩ := hrule
    exact .leaf ⟨r, hr, hproduction, hresult⟩ hspan
  | unary _ hrule hspan ih =>
    obtain ⟨r, hr, -, hproduction, hresult⟩ := hrule
    exact .unary ih ⟨r, hr, hproduction, hresult⟩ hspan
  | binary _ _ hrule hmeet _ ihl ihr =>
    obtain ⟨r, hr, -, hproduction, hresult⟩ := hrule
    exact .binary ihl ihr ⟨r, hr, hproduction, hresult⟩ hmeet

theorem Possible.unchecked (h : g.Possible t) : g.Unchecked t := by
  induction h with
  | leaf _ _ => exact ⟨nofun, nofun⟩
  | unary _ hrule _ ih =>
    obtain ⟨r, hr, htype, -⟩ := hrule
    refine ⟨fun hpart => ?_, fun hpart hr' => ?_⟩
    · cases hpart with
      | child hmem hpart => exact ih.join (List.mem_singleton.mp hmem ▸ hpart)
    · cases hpart with
      | whole => exact Option.some.inj (hr.symm.trans hr') ▸ htype
      | child hmem hpart => exact ih.unary (List.mem_singleton.mp hmem ▸ hpart) hr'
  | binary _ _ _ _ hspan ihl ihr =>
    refine ⟨fun hpart => ?_, fun hpart hr' => ?_⟩
    · cases hpart with
      | whole => exact hspan
      | child hmem hpart =>
        rcases List.mem_pair.mp hmem with rfl | rfl
        · exact ihl.join hpart
        · exact ihr.join hpart
    · cases hpart with
      | child hmem hpart =>
        rcases List.mem_pair.mp hmem with rfl | rfl
        · exact ihl.unary hpart hr'
        · exact ihr.unary hpart hr'

theorem Accepts.possible (hg : g.Obtained) (h : g.Accepts t) (ht : g.Unchecked t) : g.Possible t := by
  have hconsumes {id : RuleId} {r : Rule} (hr : g.rule? id = some r) : Consumes r := by
    obtain ⟨_, _, _, _, hrules, -⟩ := hg.exists_ofRules
    exact consumes_ofRules hrules r (Array.mem_of_getElem? hr)
  induction h with
  | leaf hrule hspan =>
    obtain ⟨r, hr, hproduction, hresult⟩ := hrule
    refine .leaf ⟨r, hr, ?_, hproduction, hresult⟩ hspan
    obtain ⟨htype, -⟩ | ⟨_, -, hp⟩ | ⟨_, _, -, hp⟩ := hconsumes hr
    · exact htype
    · cases hproduction.symm.trans hp
    · cases hproduction.symm.trans hp
  | unary _ hrule hspan ih =>
    obtain ⟨r, hr, hproduction, hresult⟩ := hrule
    exact .unary (ih (ht.child (by simp))) ⟨r, hr, ht.unary .whole hr, hproduction, hresult⟩ hspan
  | binary _ _ hrule hmeet ihl ihr =>
    obtain ⟨r, hr, hproduction, hresult⟩ := hrule
    refine .binary (ihl (ht.child (by simp))) (ihr (ht.child (by simp))) ⟨r, hr, ?_, hproduction, hresult⟩ hmeet
      (ht.join .whole)
    obtain ⟨-, hp⟩ | ⟨_, -, hp⟩ | ⟨_, _, htype, -⟩ := hconsumes hr
    · cases hproduction.symm.trans hp
    · cases hproduction.symm.trans hp
    · exact htype

end Grammar

/-- Which derivations the models of the library score: those whose steps pass their checks, under a start category.
These are the derivations that can exist, and others in which a binary step has another span than its children, or a
unary step is made by a top rule. Whether there is a score, and which, is decided by words of the sentence. -/
theorem Model.BuiltIn.scoreDerivation_ok_iff {α : Type} [Scalar α] {m : Model α} (hm : m.BuiltIn) {g : Grammar}
    (hg : g.Obtained) (s : Sentence) (t : Derivation) :
    ((∃ x, m.scoreDerivation ⟨g, s⟩ t = .ok x) ↔ g.Accepts t ∧ g.isStart t.step.cat = true) ∧
    (g.Possible t ↔ g.Accepts t ∧ g.Unchecked t) ∧
    ((∀ leaf ∈ t.leaves, leaf.2.stop ≤ s.length) → ∀ s' : Sentence, (∀ i < s.length, s'.token? i = s.token? i) →
      m.scoreDerivation ⟨g, s'⟩ t = m.scoreDerivation ⟨g, s⟩ t) :=
  ⟨hm.exists_scoreDerivation_iff hg.indexed,
    ⟨fun h => ⟨h.accepts, h.unchecked⟩, fun ⟨haccepts, hunchecked⟩ => haccepts.possible hg hunchecked⟩,
    fun hleaves _ => hm.scoreDerivation_eq hleaves⟩

namespace Observed

open GrammarBuilder

def dogs : Derivation := .leaf ⟨1, 0⟩ (.word 0)

def run : Derivation := .leaf ⟨2, 1⟩ (.word 1)

def shortened : Derivation := .branch ⟨0, 2⟩ ⟨0, 1⟩ [dogs, run]

def doubled : Derivation := .branch ⟨0, 3⟩ ⟨0, 2⟩ [.branch ⟨0, 2⟩ ⟨0, 2⟩ [dogs, run]]

theorem scoreDerivation_ok_shortened : Made builder ∧ ∃ g : Grammar, builder.build 0 = .ok g ∧ g.Obtained ∧
    ((∃ x : Double, (GenerativeModel.untrained g .baseline false).toModel.scoreDerivation
      ⟨g, .ofWords ["dogs", "run"]⟩ shortened = .ok x) ∧ ¬ g.Possible shortened) ∧
    (∃ x : Double, (Perceptron.untrained g).toModel.scoreDerivation
      ⟨g, .ofWords ["dogs", "run"]⟩ doubled = .ok x) ∧ ¬ g.Possible doubled := by
  obtain ⟨g, hbuild, -⟩ := exists_build
  have hg : g.Obtained := .built made_builder hbuild
  obtain ⟨_, -, -, hlist⟩ := Grammar.contents_ofRules (GrammarBuilder.ofRules_of_build hbuild)
  rw [rules_builder] at hlist
  have hrule {i : Nat} {r : Rule} (h : g.rules.toList[i]? = some r) : g.rule? i = some r := by
    rw [Grammar.rule?, ← Array.getElem?_toList, h]
  have hlexical : g.Accepts dogs ∧ g.Accepts run :=
    ⟨.leaf ⟨_, hrule (by rw [hlist]; rfl), rfl, rfl⟩ rfl, .leaf ⟨_, hrule (by rw [hlist]; rfl), rfl, rfl⟩ rfl⟩
  have hclause (span : Span) : g.Accepts (.branch ⟨0, 2⟩ span [dogs, run]) :=
    .binary hlexical.1 hlexical.2 ⟨_, hrule (by rw [hlist]; rfl), rfl, rfl⟩ rfl
  have hstart : g.isStart 0 = true := by
    refine hg.isStart_iff.mpr ((hg.startsListed 0).mpr ⟨⟨3, .top, .top, 0, .unary 0, 1⟩, ?_, rfl, rfl⟩)
    rw [← Array.mem_toList_iff, hlist]
    decide
  have hbaseline : ((GenerativeModel.untrained g .baseline false).toModel : Model Double).BuiltIn := .generative _
  have hperceptron : (Perceptron.untrained g : Perceptron Double).toModel.BuiltIn := .perceptron _
  obtain ⟨hshortened, hjoined, -⟩ :=
    Model.BuiltIn.scoreDerivation_ok_iff hbaseline hg (.ofWords ["dogs", "run"]) shortened
  obtain ⟨hdoubled, hunary, -⟩ :=
    Model.BuiltIn.scoreDerivation_ok_iff hperceptron hg (.ofWords ["dogs", "run"]) doubled
  refine ⟨made_builder, g, hbuild, hg, ⟨hshortened.mpr ⟨hclause _, hstart⟩, fun hpossible => ?_⟩,
    hdoubled.mpr ⟨.unary (hclause _) ⟨_, hrule (by rw [hlist]; rfl), rfl, rfl⟩ rfl, hstart⟩, fun hpossible => ?_⟩
  · cases (hjoined.mp hpossible).2.join .whole
  · cases (hunary.mp hpossible).2.unary .whole (hrule (by rw [hlist]; rfl))

end Observed

end Categorial
