import Categorial.Proofs.Dependency.Coordinated
set_option autoImplicit false

namespace Categorial

namespace Predicate

def consumed? (functor raised : Predicate) (index : Nat) : Option (Predicate × List Dependency) :=
  if index < functor.arguments.length then some (consume functor raised index) else none

def applied? (functor arg : Predicate) : Option (Predicate × List Dependency) :=
  if functor.raised then consumed? arg functor 0
  else if functor.arguments = [] then none
  else some (apply functor arg)

def composed? (primary secondary : Predicate) : Option (Predicate × List Dependency) :=
  if primary.raised then consumed? secondary primary 1
  else if primary.arguments = [] ∨ secondary.arguments = [] then none
  else some (compose primary secondary)

def binary? (rule : Rule) (left right : Predicate) (arity : Nat) : Option (Predicate × List Dependency) :=
  match rule.combinator with
  | .fwdApp => applied? left right
  | .bwdApp => applied? right left
  | .fwdComp => composed? left right
  | .bwdComp => composed? right left
  | .bwdCrossComp => composed? right left
  | _ => some (binary rule left right arity)

end Predicate

namespace Grammar

/-- The decoder that knows no way out: rules, children and arguments must all be there. -/
def decode? (g : Grammar) : Derivation → Option (Predicate × List Dependency)
  | .leaf step span => some (.lexical g step.cat span.start, [])
  | .branch step _ [child] => do
    let rule ← g.rule? step.rule
    let (child, ds) ← g.decode? child
    return (.unary rule child (g.arityOf step.cat), ds)
  | .branch step _ [left, right] => do
    let rule ← g.rule? step.rule
    let (left, dsLeft) ← g.decode? left
    let (right, dsRight) ← g.decode? right
    let (p, ds) ← Predicate.binary? rule left right (g.arityOf step.cat)
    return (p, dsLeft ++ dsRight ++ ds)
  | .branch _ _ _ => none

end Grammar

namespace Predicate

variable {p q : Predicate} {b : Category.Binding} {x y u z actual left right c : Category} {slash slash' : Slash}

theorem consumed?_of_lt {index : Nat} (h : index < p.arguments.length) :
    consumed? p q index = some (consume p q index) := if_pos h

theorem Fits.arguments_ne_nil (hp : p.Fits (.functor x slash y)) : p.arguments ≠ [] := by
  have hlength : p.arguments.length = 1 + x.arity := hp.length_eq rfl
  exact List.ne_nil_of_length_pos (by omega)

theorem Fits.applied? (hp : p.Fits (.functor x slash y)) (hq : q.Fits actual) (hmatch : y.matches? actual = some b) :
    applied? p q = some (Predicate.apply p q) := by
  unfold Predicate.applied? Predicate.apply
  split
  · rename_i hraised
    obtain ⟨hconj, harity⟩ := Category.arity_of_isRaised (hp.isRaised rfl hraised)
    obtain ⟨harity', hconj'⟩ := Category.arity_of_unify hmatch
    have hlength : q.arguments.length = y.arity := (hq.length_eq (hconj'.trans hconj)).trans harity'
    exact consumed?_of_lt (by omega)
  · exact if_neg hp.arguments_ne_nil

theorem Fits.composed? (hp : p.Fits (.functor x slash y)) (hq : q.Fits (.functor u slash' z))
    (hmatch : y.matches? u = some b) : composed? p q = some (Predicate.compose p q) := by
  unfold Predicate.composed? Predicate.compose
  split
  · rename_i hraised
    obtain ⟨-, harity⟩ := Category.arity_of_isRaised (hp.isRaised rfl hraised)
    obtain ⟨harity', -⟩ := Category.arity_of_unify hmatch
    have hlength : q.arguments.length = 1 + u.arity := hq.length_eq rfl
    exact consumed?_of_lt (by omega)
  · exact if_neg (not_or.mpr ⟨hp.arguments_ne_nil, hq.arguments_ne_nil⟩)

theorem Fits.binary? {rule : Rule} (hp : p.Fits left) (hq : q.Fits right)
    (h : rule.combinator ≠ .observed → rule.combinator.result? left right = some c) (arity : Nat) :
    binary? rule p q arity = some (Predicate.binary rule p q arity) := by
  by_cases hobserved : rule.combinator = .observed
  · unfold Predicate.binary?
    rw [hobserved]
  have hresult := h hobserved
  clear h hobserved
  unfold Predicate.binary? Predicate.binary
  generalize rule.combinator = k at hresult
  cases Combinator.combines_of_result? hresult with
  | fwdApp hmatch => exact hp.applied? hq hmatch
  | bwdApp hmatch => exact hq.applied? hp hmatch
  | fwdComp hmatch => exact hp.composed? hq hmatch
  | bwdComp hmatch => exact hq.composed? hp hmatch
  | bwdCrossComp _ hmatch => exact hq.composed? hp hmatch
  | conj | coord | leftPunct | rightPunct => rfl

end Predicate

namespace Grammar

variable {g : Grammar} {allowed : Nat → CatId → Prop} {t : Derivation}

theorem Licenses.exists_rule (hg : g.Indexed) (ht : g.Licenses allowed t) :
    ∃ r, g.rule? t.step.rule = some r ∧ r.result = t.step.cat := by
  cases ht with
  | leaf _ hrule =>
    obtain ⟨r, hr, -, hresult⟩ := hg.rule_of_lexicalRule? hrule
    exact ⟨r, hr, hresult⟩
  | unary _ hrule =>
    obtain ⟨r, hr, -, -, hresult⟩ := hrule
    exact ⟨r, hr, hresult⟩
  | binary _ _ _ hrule =>
    obtain ⟨r, hr, -, hresult⟩ := hrule
    exact ⟨r, hr, hresult⟩

end Grammar

namespace GrammarBuilder

variable {b : GrammarBuilder} {gid : Nat} {g : Grammar} {allowed : Nat → CatId → Prop} {t : Derivation}

theorem exists_category (h : b.build gid = .ok g) (ht : g.Licenses allowed t) :
    ∃ c, g.category? t.step.cat = some c := by
  have hrules := ofRules_of_build h
  obtain ⟨_, -, hcontents, -⟩ := Grammar.contents_ofRules hrules
  obtain ⟨r, hr, hresult⟩ := ht.exists_rule (Grammar.indexed_ofRules hrules)
  obtain ⟨hlt, -⟩ := hcontents.rules r (Array.mem_of_getElem? hr)
  rw [← hresult]
  exact ⟨_, Array.getElem?_eq_getElem hlt⟩

/-- By induction on the derivation: no rule of a built codebook asks for an argument that is not there. -/
theorem decode?_eq (hb : b.Made) (h : b.build gid = .ok g) (ht : g.Licenses allowed t) :
    g.decode? t = some (g.decode t) := by
  induction ht with
  | leaf _ _ => rfl
  | unary _ hrule ih =>
    obtain ⟨r, hr, -⟩ := hrule
    simp only [Grammar.decode?, Grammar.decode, hr, ih]
    rfl
  | binary hl hr _ hrule ihl ihr =>
    obtain ⟨r, hrule, hproduction, -⟩ := hrule
    obtain ⟨left, right, result, hleft, hright, -, hinstance⟩ := derives_of_binaryRule hb h hrule hproduction
    have hbinary := (fits_decode hb h hl hleft).binary? (fits_decode hb h hr hright) hinstance
    simp only [Grammar.decode?, Grammar.decode, hrule, ihl, ihr]
    simp only [bind, Option.bind, hbinary]
    rfl

/-- The predicate of every phrase of a licensed derivation has an argument for each that the category takes, unless the
phrase is a conjunct with its conjunction. Nothing is ever filled that is not there. The trees behind the codebook are
such as are read from lines. -/
theorem decode_filled (hb : b.Made) (h : b.build gid = .ok g) (ht : g.Licenses allowed t) :
    (∀ s : Derivation, s.Part t → ∃ c, g.category? s.step.cat = some c ∧
      (c.isConj = false → (g.decode s).1.arguments.length = c.arity)) ∧
    g.decode? t = some (g.decode t) := by
  refine ⟨fun s hs => ?_, decode?_eq hb h ht⟩
  obtain ⟨hlicensed, -⟩ := ht.part hs
  obtain ⟨c, hc⟩ := exists_category h hlicensed
  exact ⟨c, hc, (fits_decode hb h hlicensed hc).length_eq⟩

end GrammarBuilder

namespace Subjects

open GrammarBuilder

open Bracketings (pair)

theorem decode_filled_raised : Made builder ∧ ∃ g, builder.build 0 = .ok g ∧
    g.Licenses (fun _ _ => True) raisedTogether ∧
    (g.decode (raising (pair 2 6 (subject 0) (pair 5 9 (and 1) (subject 2))))).1.arguments.length = 1 ∧
    (g.decode (run 3)).1.arguments.length = 1 ∧ (g.decode raisedTogether).1.arguments.length = 0 ∧
    g.decode? raisedTogether = some (g.decode raisedTogether) := by
  obtain ⟨g, hbuild, hg, hcategories, hrules, -⟩ := exists_build
  obtain ⟨-, hlicensed⟩ := licensed_raisedConjuncts hg hrules
  obtain ⟨hcounts, hall⟩ := decode_filled made_builder hbuild hlicensed
  have hcount {s : Derivation} {c : Category} (hs : s.Part raisedTogether)
      (hc : categories[s.step.cat]? = some c) (hconj : c.isConj = false) :
      (g.decode s).1.arguments.length = c.arity := by
    obtain ⟨c', hc', hlength⟩ := hcounts s hs
    rw [Grammar.category?, hcategories, hc] at hc'
    cases hc'
    exact hlength hconj
  have hpart {s : Derivation} {left right : Derivation} {cat : CatId} {id : RuleId} (hs : s ∈ [left, right]) :
      s.Part (pair cat id left right) := .child hs .whole
  exact ⟨made_builder, g, hbuild, hlicensed, hcount (c := raised) (hpart (by simp)) rfl rfl,
    hcount (c := verb) (hpart (by simp)) rfl rfl, hcount (c := clause) .whole rfl rfl, hall⟩

end Subjects

end Categorial
