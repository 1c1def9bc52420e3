import Categorial.Treebank.Resolve
import Categorial.Proofs.Coarse.Licensed
set_option autoImplicit false

namespace Categorial

namespace Grammar

variable {g : Grammar}

/-- The derivation of a treebank node whose words start at `next` and stop before the last number. -/
inductive Resolves (g : Grammar) : BankTree → Nat → Derivation → Nat → Prop where
  | leaf {c : Category} {token : Token} {next : Nat} {cat : CatId} {rule : RuleId} :
      g.catIdOf? c = some cat → g.lexicalRule? cat = some rule →
      Resolves g (.leaf c token) next (.leaf ⟨cat, rule⟩ (.word next)) (next + 1)
  | unary {c : Category} {head next stop : Nat} {child : BankTree} {t : Derivation} {cat : CatId}
      {rule : RuleId} : g.catIdOf? c = some cat → Resolves g child next t stop →
      (g.unaryRules t.step.cat).find? (g.builds cat) = some rule →
      Resolves g (.node c head [child]) next (.branch ⟨cat, rule⟩ t.span [t]) stop
  | binary {c : Category} {head next mid stop : Nat} {left right : BankTree} {l r : Derivation} {cat : CatId}
      {rule : RuleId} : g.catIdOf? c = some cat → Resolves g left next l mid → Resolves g right mid r stop →
      (g.binaryRules l.step.cat r.step.cat).find? (g.builds cat) = some rule →
      Resolves g (.node c head [left, right]) next (.branch ⟨cat, rule⟩ (l.span.join r.span) [l, r]) stop

theorem resolveNode_eq_ok {t : BankTree} : ∀ {next stop : Nat} {d : Derivation},
    g.resolveNode t next = .ok (d, stop) ↔ g.Resolves t next d stop := by
  induction t using BankTree.induction with
  | leaf c token =>
    intro next stop d
    simp only [resolveNode, except_bind_eq_ok, elim_error_eq_ok, except_pure, Except.ok.injEq, Prod.mk.injEq]
    constructor
    · rintro ⟨cat, hcat, rule, hrule, rfl, rfl⟩
      exact .leaf hcat hrule
    · intro h
      cases h with
      | leaf hcat hrule => exact ⟨_, hcat, _, hrule, rfl, rfl⟩
  | node c head children ih =>
    intro next stop d
    match children, ih with
    | [child], ih =>
      have ih := @ih child (by simp)
      simp only [resolveNode, except_bind_eq_ok, elim_error_eq_ok, except_pure, Except.ok.injEq, Prod.mk.injEq,
        Prod.exists, ih]
      constructor
      · rintro ⟨cat, hcat, t, stop, ht, rule, hrule, rfl, rfl⟩
        exact .unary hcat ht hrule
      · intro h
        cases h with
        | unary hcat ht hrule => exact ⟨_, hcat, _, _, ht, _, hrule, rfl, rfl⟩
    | [left, right], ih =>
      have ihl := @ih left (by simp)
      have ihr := @ih right (by simp)
      simp only [resolveNode, except_bind_eq_ok, elim_error_eq_ok, except_pure, Except.ok.injEq, Prod.mk.injEq,
        Prod.exists, ihl, ihr]
      constructor
      · rintro ⟨cat, hcat, l, mid, hl, r, stop, hr, rule, hrule, rfl, rfl⟩
        exact .binary hcat hl hr hrule
      · intro h
        cases h with
        | binary hcat hl hr hrule => exact ⟨_, hcat, _, _, hl, _, _, hr, _, hrule, rfl, rfl⟩
    | [], _ | _ :: _ :: _ :: _, _ =>
      -- no rule takes so many children
      simp only [resolveNode, except_bind_eq_ok, except_throw]
      constructor
      · rintro ⟨_, _, h⟩
        cases h
      · intro h
        cases h

theorem resolve_eq_ok {t : BankTree} {d : Derivation} :
    g.resolve t = .ok d ↔ (∃ stop, g.Resolves t 0 d stop) ∧ g.isStart d.step.cat = true := by
  simp only [resolve, except_bind_eq_ok, except_mapError_eq_ok, Prod.exists, resolveNode_eq_ok]
  constructor
  · rintro ⟨d', stop, ht, h⟩
    split at h
    · rename_i hstart
      cases h
      exact ⟨⟨stop, ht⟩, hstart⟩
    · cases h
  · rintro ⟨⟨stop, ht⟩, hstart⟩
    exact ⟨d, stop, ht, by rw [if_pos hstart]; rfl⟩

theorem builds_iff {result : CatId} {id : RuleId} :
    g.builds result id = true ↔ ∃ r, g.rule? id = some r ∧ r.result = result := by
  cases hr : g.rule? id <;> simp [builds, hr]

/-- What is found among the rules of some kind is a rule of this kind that builds the category above. -/
theorem Indexed.rule_of_find? (hg : g.Indexed) {kind : Rule → Bool} {result : CatId} {id : RuleId}
    (h : (g.idsWhere kind).find? (g.builds result) = some id) :
    ∃ r, g.rule? id = some r ∧ kind r = true ∧ r.result = result := by
  obtain ⟨r, hr, hkind⟩ := hg.mem_idsWhere.mp (List.mem_of_find?_eq_some h)
  obtain ⟨_, hr', hresult⟩ := builds_iff.mp (List.find?_some h)
  cases hr.symm.trans hr'
  exact ⟨r, hr, hkind, hresult⟩

theorem Indexed.unaryRule_of_find? (hg : g.Indexed) {child result : CatId} {id : RuleId}
    (h : (g.unaryRules child).find? (g.builds result) = some id) : g.UnaryRule id child result := by
  rw [hg.unaryRules] at h
  obtain ⟨r, hr, hkind, hresult⟩ := hg.rule_of_find? h
  obtain ⟨htype, hproduction⟩ : r.ruleType = .unary ∧ r.production = .unary child := by
    simpa [unaryFor] using hkind
  exact ⟨r, hr, htype, hproduction, hresult⟩

theorem Indexed.binaryRule_of_find? (hg : g.Indexed) {left right result : CatId} {id : RuleId}
    (h : (g.binaryRules left right).find? (g.builds result) = some id) : g.BinaryRule id left right result := by
  rw [hg.binaryRules] at h
  obtain ⟨r, hr, hkind, hresult⟩ := hg.rule_of_find? h
  exact ⟨r, hr, by simpa [binaryFor] using hkind, hresult⟩

namespace Resolves

variable {t : BankTree} {next stop : Nat} {d : Derivation}

theorem span_eq (h : g.Resolves t next d stop) :
    d.span = ⟨next, stop⟩ ∧ stop = next + t.tokens.length := by
  induction h with
  | leaf => exact ⟨rfl, rfl⟩
  | unary _ _ _ ih => simpa [BankTree.tokens, BankTree.tokensOf] using ih
  | binary _ _ _ _ ihl ihr =>
    obtain ⟨hl, rfl⟩ := ihl
    obtain ⟨hr, rfl⟩ := ihr
    rw [Derivation.span_branch, hl, hr]
    refine ⟨rfl, ?_⟩
    simp only [BankTree.tokens, BankTree.tokensOf, List.length_append, List.length_nil]
    omega

theorem licenses (hg : g.Indexed) (h : g.Resolves t next d stop) : g.Licenses (fun _ _ => True) d := by
  induction h with
  | leaf _ hrule => exact .leaf trivial hrule
  | unary _ _ hrule ih => exact .unary ih (hg.unaryRule_of_find? hrule)
  | binary _ hl hr hrule ihl ihr =>
    have hmeet : _ = _ := (congrArg Span.stop hl.span_eq.1).trans (congrArg Span.start hr.span_eq.1).symm
    exact .binary ihl ihr hmeet (hg.binaryRule_of_find? hrule)

end Resolves

end Grammar

end Categorial
