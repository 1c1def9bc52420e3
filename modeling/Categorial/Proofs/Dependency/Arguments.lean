import Categorial.Proofs.Dependency.Rebracketed
import Categorial.Proofs.Grammar.Instances
import Categorial.Proofs.Grammar.Raised
set_option autoImplicit false

namespace Categorial

namespace Category

theorem arity_substitute (b : Binding) (c : Category) : (c.substitute b).arity = c.arity := by
  induction c with
  | atom base feature =>
    unfold substitute
    split
    · split <;> rfl
    · rfl
  | functor x slash y hx _ => rw [substitute, arity, arity, hx]
  | conj _ _ => rfl

theorem arity_of_unify {pattern actual : Category} {b b' : Binding} (h : unify b pattern actual = some b') :
    actual.arity = pattern.arity ∧ actual.isConj = pattern.isConj := by
  fun_induction unify b pattern actual generalizing b' with
  | case1 | case3 | case8 | case10 => cases h
  | case2 | case4 | case5 | case6 | case9 => exact ⟨rfl, rfl⟩
  | case7 _ _ _ _ _ _ ihx _ =>
    obtain ⟨_, hresult, -⟩ := Option.bind_eq_some_iff.mp h
    exact ⟨by rw [arity, arity, (ihx hresult).1], rfl⟩

theorem arity_of_isRaised {x y : Category} {slash : Slash} (h : (functor x slash y).isRaised = true) :
    y.isConj = false ∧ y.arity = 1 + x.arity := by
  cases y with
  | functor u r z =>
    simp only [isRaised, Bool.and_eq_true, beq_iff_eq] at h
    exact ⟨rfl, by rw [arity, h.2]⟩
  | _ => cases h

end Category

namespace Predicate

/-- As many arguments as the category takes, and raised only if the category looks so; unless the category is that of
a conjunct with its conjunction. -/
structure Fits (p : Predicate) (c : Category) : Prop where
  length_eq : c.isConj = false → p.arguments.length = c.arity
  isRaised : c.isConj = false → p.raised = true → c.isRaised = true

variable {p q : Predicate} {b : Category.Binding} {x y u z actual left right c : Category} {slash slash' : Slash}

theorem fits_conj (p : Predicate) (c : Category) : p.Fits (.conj c) := ⟨nofun, nofun⟩

theorem fits_of_direct (hlength : p.arguments.length = c.arity) (hraised : p.raised = false) : p.Fits c :=
  ⟨fun _ => hlength, fun _ h => absurd (hraised.symm.trans h) Bool.false_ne_true⟩

theorem fits_resize (p : Predicate) (c : Category) : (p.resize c.arity).Fits c := by
  unfold resize
  split
  · rename_i hlength
    exact fits_of_direct hlength rfl
  · exact fits_of_direct List.length_replicate rfl

theorem fits_unary {rule : Rule} (h : rule.combinator = .fwdRaise ∨ rule.combinator = .bwdRaise → c.isRaised = true)
    (p : Predicate) : (unary rule p c.arity).Fits c := by
  have hraise (hc : c.isRaised = true) : (unary.raise c.arity p).Fits c :=
    ⟨fun _ => List.length_replicate, fun _ _ => hc⟩
  unfold unary
  split
  · rename_i hcombinator
    exact hraise (h (.inl hcombinator))
  · rename_i hcombinator
    exact hraise (h (.inr hcombinator))
  · exact fits_resize p c

theorem length_consume {index : Nat} (h : index < p.arguments.length) :
    (consume p q index).1.arguments.length = p.arguments.length - 1 :=
  List.length_eraseIdx_of_lt h

theorem Fits.apply (hp : p.Fits (.functor x slash y)) (hq : q.Fits actual) (hmatch : y.matches? actual = some b) :
    (apply p q).1.Fits (x.substitute b) := by
  have hlength : p.arguments.length = 1 + x.arity := hp.length_eq rfl
  unfold Predicate.apply
  split
  · rename_i hraised
    obtain ⟨hconj, harity⟩ := Category.arity_of_isRaised (hp.isRaised rfl hraised)
    obtain ⟨harity', hconj'⟩ := Category.arity_of_unify hmatch
    have hlength' : q.arguments.length = 1 + x.arity := by rw [hq.length_eq (hconj'.trans hconj), harity', harity]
    refine fits_of_direct ?_ rfl
    rw [length_consume (by omega), Category.arity_substitute]
    omega
  · refine fits_of_direct ?_ rfl
    rw [length_merge, List.length_tail, Category.arity_substitute]
    omega

theorem Fits.compose (hp : p.Fits (.functor x slash y)) (hq : q.Fits (.functor u slash' z))
    (hmatch : y.matches? u = some b) : (compose p q).1.Fits (.functor (x.substitute b) slash' z) := by
  have hlength : p.arguments.length = 1 + x.arity := hp.length_eq rfl
  have hlength' : q.arguments.length = 1 + u.arity := hq.length_eq rfl
  unfold Predicate.compose
  split
  · rename_i hraised
    obtain ⟨-, harity⟩ := Category.arity_of_isRaised (hp.isRaised rfl hraised)
    obtain ⟨harity', -⟩ := Category.arity_of_unify hmatch
    refine fits_of_direct ?_ rfl
    rw [length_consume (by omega), Category.arity, Category.arity_substitute]
    omega
  · refine fits_of_direct ?_ rfl
    rw [List.length_cons, length_merge, List.length_tail, Category.arity, Category.arity_substitute]
    omega

theorem Fits.coordinate (hp : p.Fits c) (q : Predicate) : (coordinate p q).Fits c where
  length_eq hconj := (length_merge _ _).trans (hp.length_eq hconj)
  isRaised _ := nofun

theorem Fits.binary {rule : Rule} (hp : p.Fits left) (hq : q.Fits right)
    (h : rule.combinator ≠ .observed → rule.combinator.result? left right = some c) :
    (binary rule p q c.arity).1.Fits c := by
  by_cases hobserved : rule.combinator = .observed
  · unfold Predicate.binary
    rw [hobserved]
    simp only
    split
    · exact fits_resize q c
    · exact fits_resize p c
  have hresult := h hobserved
  clear h hobserved
  unfold Predicate.binary
  generalize rule.combinator = k at hresult
  cases Combinator.combines_of_result? hresult with
  | fwdApp hmatch => exact hp.apply hq hmatch
  | bwdApp hmatch => exact hq.apply hp hmatch
  | fwdComp hmatch => exact hp.compose hq hmatch
  | bwdComp hmatch => exact hq.compose hp hmatch
  | bwdCrossComp _ hmatch => exact hq.compose hp hmatch
  | conj => exact fits_conj q _
  | coord => exact hp.coordinate q
  | leftPunct => exact hq
  | rightPunct => exact hp

end Predicate

namespace GrammarBuilder

open Predicate

variable {b : GrammarBuilder} {gid : Nat} {g : Grammar}

/-- A binary rule of a built codebook has categories on which its schema works, unless it was only seen. -/
theorem derives_of_binaryRule (hb : b.Made) (h : b.build gid = .ok g) {id : RuleId} {r : Rule}
    (hr : g.rule? id = some r) {x y : CatId} (hproduction : r.production = .binary x y) :
    ∃ left right result, g.category? x = some left ∧ g.category? y = some right ∧ g.category? r.result = some result ∧
      (r.combinator ≠ .observed → r.combinator.result? left right = some result) := by
  obtain ⟨_, -, ⟨hcategories, -, -, -, -⟩, hrules⟩ := Grammar.contents_ofRules (ofRules_of_build h)
  have hmem : r ∈ b.rules := hrules ▸ Array.mem_toList_iff.mpr (Array.mem_of_getElem? hr)
  simp only [Grammar.category?, hcategories]
  exact derives_of_mem_rules hb.coherent hmem hproduction

/-- By induction on the derivation, with one case for each kind of rule. -/
theorem fits_decode (hb : b.Made) (h : b.build gid = .ok g) {allowed : Nat → CatId → Prop} {t : Derivation}
    (ht : g.Licenses allowed t) : ∀ {c : Category}, g.category? t.step.cat = some c → (g.decode t).1.Fits c := by
  have harity {id : CatId} {c : Category} (hc : g.category? id = some c) : g.arityOf id = c.arity := by
    rw [Grammar.arityOf, hc]
    rfl
  induction ht with
  | leaf _ _ =>
    intro c hc
    refine fits_of_direct ?_ rfl
    rw [Grammar.decode, Predicate.lexical, List.length_map, List.length_range]
    exact harity hc
  | unary _ hrule _ =>
    intro c hc
    obtain ⟨r, hr, htype, -, rfl⟩ := hrule
    simp only [Derivation.step_branch] at hc
    simp only [Grammar.decode, hr]
    rw [harity hc]
    refine fits_unary (fun hraise => ?_) _
    obtain hchange | ⟨c', hc', hcombinator⟩ := combinator_of_unaryRule hb h hr htype
    · rcases hraise with hraise | hraise <;> cases hraise.symm.trans hchange
    · obtain rfl := Option.some.inj (hc.symm.trans hc')
      exact isRaised_of_unaryCombinator (hcombinator ▸ hraise)
  | binary _ _ _ hrule ihl ihr =>
    intro c hc
    obtain ⟨r, hr, hproduction, rfl⟩ := hrule
    obtain ⟨left, right, result, hleft, hright, hresult, hinstance⟩ := derives_of_binaryRule hb h hr hproduction
    obtain rfl := Option.some.inj (hc.symm.trans hresult)
    simp only [Grammar.decode, hr]
    rw [harity hresult]
    exact (ihl hleft).binary (ihr hright) hinstance

end GrammarBuilder

end Categorial
