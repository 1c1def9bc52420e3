import Categorial.Model.Basic
import Categorial.Proofs.Coarse.Licensed
set_option autoImplicit false

namespace Categorial

theorem Expansion.check_of_fits {ctx : Context} {e : Expansion} {r : Rule}
    (hr : ctx.grammar.rule? e.rule = some r) (hfits : e.fits r = true) : e.check ctx = .ok r := by
  rw [check, Context.lookupRule, hr]
  simp [bind, Except.bind, hfits]

theorem Expansion.lookupRule_of_check {ctx : Context} {e : Expansion} {r : Rule} (h : e.check ctx = .ok r) :
    ctx.lookupRule e.rule = .ok r := by
  unfold check at h
  obtain ⟨r', hlookup, hcheck⟩ := except_bind_eq_ok.mp h
  split at hcheck
  · cases hcheck
    exact hlookup
  · cases hcheck

theorem Expansion.rule_of_check {ctx : Context} {e : Expansion} {r : Rule} (h : e.check ctx = .ok r) :
    ctx.grammar.rule? e.rule = some r :=
  elim_error_eq_ok.mp (lookupRule_of_check h)

theorem Expansion.fits_of_check {ctx : Context} {e : Expansion} {r : Rule} (h : e.check ctx = .ok r) :
    ctx.grammar.rule? e.rule = some r ∧ e.fits r = true := by
  have hr := rule_of_check h
  refine ⟨hr, ?_⟩
  rw [check, Context.lookupRule, hr] at h
  by_contra hfits
  simp [bind, Except.bind, hfits] at h

namespace Grammar

variable {g : Grammar} {allowed : Nat → CatId → Prop} {t : Derivation}

/-- What the checks ask for: a rule for every step that results in its category and consumes those of the children, a
word of length 1 in a leaf, one span in a unary step, and in a binary one children that meet. -/
inductive Accepts (g : Grammar) : Derivation → Prop where
  | leaf {step : Step} {span : Span} :
      (∃ r, g.rule? step.rule = some r ∧ r.production = .terminal ∧ r.result = step.cat) → span.length = 1 →
      Accepts g (.leaf step span)
  | unary {step : Step} {span : Span} {t : Derivation} : Accepts g t →
      (∃ r, g.rule? step.rule = some r ∧ r.production = .unary t.step.cat ∧ r.result = step.cat) → span = t.span →
      Accepts g (.branch step span [t])
  | binary {step : Step} {span : Span} {left right : Derivation} : Accepts g left → Accepts g right →
      g.BinaryRule step.rule left.step.cat right.step.cat step.cat → left.span.stop = right.span.start →
      Accepts g (.branch step span [left, right])

theorem Accepts.length_eq (h : g.Accepts t) : ∀ leaf ∈ t.leaves, leaf.2.length = 1 := by
  induction h with
  | leaf _ hspan => exact List.forall_mem_singleton.mpr hspan
  | unary _ _ _ ih => simpa [Derivation.leaves, Derivation.leavesOf] using ih
  | binary _ _ _ _ ihl ihr =>
    simp only [Derivation.leaves, Derivation.leavesOf, List.append_nil]
    exact List.forall_mem_append.mpr ⟨ihl, ihr⟩

theorem Accepts.walk (h : g.Accepts t) (m : Refiner) (s : Sentence) :
    ∃ site es, m.walk ⟨g, s⟩ t = .ok (site, es) ∧ site.cat = t.step.cat ∧ site.span = t.span ∧
      ∀ e ∈ es, ∃ r, e.check ⟨g, s⟩ = .ok r := by
  induction h with
  | leaf hrule hspan =>
    obtain ⟨r, hr, hproduction, hresult⟩ := hrule
    refine ⟨_, _, rfl, rfl, rfl, fun e he => ?_⟩
    obtain rfl := List.mem_singleton.mp he
    exact ⟨r, Expansion.check_of_fits hr (by simp [Expansion.fits, hproduction, hresult, hspan])⟩
  | unary _ hrule hspan ih =>
    obtain ⟨child, es, hwalk, hcat, hspan', hes⟩ := ih
    obtain ⟨r, hr, hproduction, hresult⟩ := hrule
    refine ⟨_, _, by rw [Refiner.walk, hwalk]; rfl, rfl, rfl, fun e he => ?_⟩
    rcases List.mem_append.mp he with he | he
    · exact hes e he
    · obtain rfl := List.mem_singleton.mp he
      exact ⟨r, Expansion.check_of_fits hr
        (by simp [Expansion.fits, hproduction, hresult, hcat, hspan, hspan'])⟩
  | binary _ _ hrule hmeet ihl ihr =>
    obtain ⟨l, belowLeft, hleft, hcatl, hspanl, hbelowLeft⟩ := ihl
    obtain ⟨r, belowRight, hright, hcatr, hspanr, hbelowRight⟩ := ihr
    obtain ⟨production, hr, hproduction, hresult⟩ := hrule
    refine ⟨_, _, by rw [Refiner.walk, hleft]; simp only [bind, Except.bind, hright]; rfl, rfl, rfl,
      fun e he => ?_⟩
    rcases List.mem_append.mp he with he | he
    · exact (List.mem_append.mp he).elim (hbelowLeft e) (hbelowRight e)
    · obtain rfl := List.mem_singleton.mp he
      exact ⟨production, Expansion.check_of_fits hr
        (by simp [Expansion.fits, hproduction, hresult, hcatl, hcatr, hspanl, hspanr, hmeet])⟩

/-- With a start category at its root an accepted derivation has its steps, the top step last. -/
theorem Accepts.expansions (h : g.Accepts t) (hg : g.Indexed) (hstart : g.isStart t.step.cat = true) (m : Refiner)
    (s : Sentence) : ∃ es, m.expansions ⟨g, s⟩ t = .ok es ∧ ∀ e ∈ es, ∃ r, e.check ⟨g, s⟩ = .ok r := by
  obtain ⟨site, es, hwalk, hcat, _, hes⟩ := h.walk m s
  obtain ⟨top, htop⟩ := Option.isSome_iff_exists.mp hstart
  obtain ⟨r, hr, _, hproduction⟩ := hg.rule_of_topRule? htop
  refine ⟨es ++ [.top top site], ?_, fun e he => ?_⟩
  · simp [Refiner.expansions, hwalk, bind, Except.bind, hcat, htop]
  · rcases List.mem_append.mp he with he | he
    · exact hes e he
    · obtain rfl := List.mem_singleton.mp he
      exact ⟨r, Expansion.check_of_fits hr (by simp [Expansion.fits, hproduction, hcat])⟩

theorem accepts_of_walk {m : Refiner} {s : Sentence} : ∀ {site : Site} {es : List Expansion},
    m.walk ⟨g, s⟩ t = .ok (site, es) → (∀ e ∈ es, ∃ r, e.check ⟨g, s⟩ = .ok r) →
    g.Accepts t ∧ site.cat = t.step.cat ∧ site.span = t.span := by
  induction t using Derivation.induction with
  | leaf step span =>
    intro site es hwalk hes
    cases hwalk
    obtain ⟨r, hcheck⟩ := hes _ (List.mem_singleton_self _)
    obtain ⟨hr, hfits⟩ := Expansion.fits_of_check hcheck
    simp only [Expansion.fits, Bool.and_eq_true, beq_iff_eq] at hfits
    obtain ⟨⟨hproduction, hresult⟩, hspan⟩ := hfits
    exact ⟨.leaf ⟨r, hr, hproduction, hresult⟩ hspan, rfl, rfl⟩
  | branch step span children ih =>
    intro site es hwalk hes
    match children with
    | [t] =>
      obtain ⟨⟨child, below⟩, ht, hwalk⟩ := except_bind_eq_ok.mp hwalk
      cases hwalk
      obtain ⟨haccepts, hcat, hspan⟩ := ih t (by simp) ht fun e he => hes e (List.mem_append_left _ he)
      obtain ⟨r, hcheck⟩ := hes _ (List.mem_append_right _ (List.mem_singleton_self _))
      obtain ⟨hr, hfits⟩ := Expansion.fits_of_check hcheck
      simp only [Expansion.fits, Bool.and_eq_true, beq_iff_eq] at hfits
      obtain ⟨⟨hproduction, hresult⟩, hsame⟩ := hfits
      exact ⟨.unary haccepts ⟨r, hr, hcat ▸ hproduction, hresult⟩ (hsame.trans hspan), rfl, rfl⟩
    | [l, r] =>
      obtain ⟨⟨left, belowLeft⟩, hl, hwalk⟩ := except_bind_eq_ok.mp hwalk
      obtain ⟨⟨right, belowRight⟩, hr, hwalk⟩ := except_bind_eq_ok.mp hwalk
      cases hwalk
      obtain ⟨hleft, hcatl, hspanl⟩ := ih l (by simp) hl fun e he =>
        hes e (List.mem_append_left _ (List.mem_append_left _ he))
      obtain ⟨hright, hcatr, hspanr⟩ := ih r (by simp) hr fun e he =>
        hes e (List.mem_append_left _ (List.mem_append_right _ he))
      obtain ⟨rule, hcheck⟩ := hes _ (List.mem_append_right _ (List.mem_singleton_self _))
      obtain ⟨hrule, hfits⟩ := Expansion.fits_of_check hcheck
      simp only [Expansion.fits, Bool.and_eq_true, beq_iff_eq] at hfits
      obtain ⟨⟨hproduction, hresult⟩, hmeet⟩ := hfits
      exact ⟨.binary hleft hright ⟨rule, hrule, hcatl ▸ hcatr ▸ hproduction, hresult⟩ (hspanl ▸ hspanr ▸ hmeet),
        rfl, rfl⟩
    | [] => cases hwalk
    | _ :: _ :: _ :: _ => cases hwalk

end Grammar

namespace Grammar.Licenses

variable {g : Grammar} {allowed : Nat → CatId → Prop} {t : Derivation}

theorem accepts (hg : g.Indexed) (hterminal : ∀ r ∈ g.rules, r.ruleType = .lexical → r.production = .terminal)
    (h : g.Licenses allowed t) : g.Accepts t := by
  induction h with
  | leaf _ hrule =>
    obtain ⟨r, hr, htype, hresult⟩ := hg.rule_of_lexicalRule? hrule
    refine .leaf ⟨r, hr, hterminal r (Array.mem_of_getElem? hr) htype, hresult⟩ ?_
    simp [Span.word, Span.length]
  | unary _ hrule ih =>
    obtain ⟨r, hr, -, hproduction, hresult⟩ := hrule
    exact .unary ih ⟨r, hr, hproduction, hresult⟩ rfl
  | binary _ _ hmeet hrule ihl ihr => exact .binary ihl ihr hrule hmeet

theorem expansions (hg : g.Indexed)
    (hterminal : ∀ r ∈ g.rules, r.ruleType = .lexical → r.production = .terminal)
    (h : g.Licenses allowed t) (hstart : g.isStart t.step.cat = true) (m : Refiner) (s : Sentence) :
    ∃ es, m.expansions ⟨g, s⟩ t = .ok es ∧ ∀ e ∈ es, ∃ r, e.check ⟨g, s⟩ = .ok r :=
  (h.accepts hg hterminal).expansions hg hstart m s

end Grammar.Licenses

end Categorial
