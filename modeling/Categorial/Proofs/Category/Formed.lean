import Categorial.Grammar.Schema
import Categorial.Proofs.Category.Spelling
set_option autoImplicit false

/-!
The categories that can be made from texts. Type-raising, filling in a feature and the schemas make proper
categories of proper ones, so each of them is the only one with its text, and is read back from it.
-/

namespace Categorial

namespace Combinator

open Category

/-- The schema makes the third category of the other two: one case for each way in which it can. -/
inductive Combines : Combinator → Category → Category → Category → Prop
  | fwdApp {x y right : Category} {b : Binding} : y.matches? right = some b →
      Combines .fwdApp (.functor x .forward y) right (x.substitute b)
  | bwdApp {x y left : Category} {b : Binding} : y.matches? left = some b →
      Combines .bwdApp left (.functor x .backward y) (x.substitute b)
  | fwdComp {x y u z : Category} {b : Binding} : y.matches? u = some b →
      Combines .fwdComp (.functor x .forward y) (.functor u .forward z) (.functor (x.substitute b) .forward z)
  | bwdComp {x y u z : Category} {b : Binding} : y.matches? u = some b →
      Combines .bwdComp (.functor u .backward z) (.functor x .backward y) (.functor (x.substitute b) .backward z)
  | bwdCrossComp {x y u z : Category} {b : Binding} : y.isFunctor = true → y.matches? u = some b →
      Combines .bwdCrossComp (.functor u .forward z) (.functor x .backward y) (.functor (x.substitute b) .forward z)
  | conj {left right : Category} : left.isConjunction = true → right.isPunct = false → right.isConj = false →
      Combines .conj left right (.conj right)
  | coord {left inner : Category} {b : Binding} : inner.matches? left = some b → left.isConj = false →
      Combines .coord left (.conj inner) left
  | leftPunct {left right : Category} : left.isPunct = true → right.isPunct = false →
      Combines .leftPunct left right right
  | rightPunct {left right : Category} : right.isPunct = true → left.isPunct = false →
      Combines .rightPunct left right left

theorem combines_of_result? {k : Combinator} {left right c : Category} (h : k.result? left right = some c) :
    Combines k left right c := by
  unfold result? at h
  split at h
  · obtain ⟨b, hmatch, rfl⟩ := Option.map_eq_some_iff.mp h
    exact .fwdApp hmatch
  · obtain ⟨b, hmatch, rfl⟩ := Option.map_eq_some_iff.mp h
    exact .bwdApp hmatch
  · obtain ⟨b, hmatch, rfl⟩ := Option.map_eq_some_iff.mp h
    exact .fwdComp hmatch
  · obtain ⟨b, hmatch, rfl⟩ := Option.map_eq_some_iff.mp h
    exact .bwdComp hmatch
  · obtain ⟨hfunctor, h⟩ := Option.ite_none_right_eq_some.mp h
    obtain ⟨b, hmatch, rfl⟩ := Option.map_eq_some_iff.mp h
    exact .bwdCrossComp hfunctor hmatch
  all_goals simp only [Option.ite_none_right_eq_some, Bool.and_eq_true, Bool.not_eq_true', Option.some.injEq,
    reduceCtorEq] at h
  · obtain ⟨⟨⟨hconjunction, hpunct⟩, hconj⟩, rfl⟩ := h
    exact .conj hconjunction hpunct hconj
  · obtain ⟨⟨hmatch, hconj⟩, rfl⟩ := h
    obtain ⟨b, hmatch⟩ := Option.isSome_iff_exists.mp hmatch
    exact .coord hmatch hconj
  · obtain ⟨⟨hpunct, hother⟩, rfl⟩ := h
    exact .leftPunct hpunct hother
  · obtain ⟨⟨hpunct, hother⟩, rfl⟩ := h
    exact .rightPunct hpunct hother

end Combinator

namespace Category

def Binding.Proper (b : Binding) : Prop := ∀ f ∈ b, ProperFeature f

theorem Binding.Proper.bind {b b' : Binding} (hb : b.Proper) {f : String} (hf : ProperFeature f)
    (h : b.bind f = some b') : b'.Proper := by
  unfold Binding.bind at h
  split at h
  · cases h
    intro f' hf'
    cases hf'
    exact hf
  · split at h
    · cases h
      exact hb
    · cases h

theorem proper_unify {pattern actual : Category} {b b' : Binding} (hb : b.Proper) (hactual : actual.Proper)
    (h : unify b pattern actual = some b') : b'.Proper := by
  fun_induction unify b pattern actual generalizing b' with
  | case1 | case3 | case8 | case10 => cases h
  | case2 | case5 | case6 =>
    cases h
    exact hb
  | case4 => exact hb.bind (hactual.2 _ rfl) h
  | case7 _ _ _ _ _ _ ihx ihy =>
    obtain ⟨met, hresult, harg⟩ := Option.bind_eq_some_iff.mp h
    exact ihy met (ihx hb hactual.1 hresult) hactual.2 harg
  | case9 _ _ _ ih => exact ih hb hactual h

theorem proper_of_matches? {pattern actual : Category} {b : Binding} (hactual : actual.Proper)
    (h : pattern.matches? actual = some b) : b.Proper :=
  proper_unify (by simp [Binding.Proper]) hactual h

theorem proper_substitute {b : Binding} (hb : b.Proper) {c : Category} (hc : c.Proper) : (c.substitute b).Proper := by
  induction c with
  | atom base feature =>
    unfold substitute
    split
    · split
      · exact ⟨hc.1, fun f hf => hb f hf⟩
      · exact ⟨hc.1, by simp⟩
    · exact hc
  | functor x slash y hx hy => exact ⟨hx hc.1, hy hc.2⟩
  | conj x ih => exact ih hc

theorem proper_filled {x pattern actual : Category} {b : Binding} (hactual : actual.Proper)
    (h : pattern.matches? actual = some b) (hx : x.Proper) : (x.substitute b).Proper :=
  proper_substitute (proper_of_matches? hactual h) hx

theorem proper_result? {k : Combinator} {left right c : Category} (hleft : left.Proper) (hright : right.Proper)
    (h : k.result? left right = some c) : c.Proper := by
  cases Combinator.combines_of_result? h with
  | fwdApp hmatch => exact proper_filled hright hmatch hleft.1
  | bwdApp hmatch => exact proper_filled hleft hmatch hright.1
  -- the argument of the functor that is composed with stays as it is
  | fwdComp hmatch => exact ⟨proper_filled hright.1 hmatch hleft.1, hright.2⟩
  | bwdComp hmatch => exact ⟨proper_filled hleft.1 hmatch hright.1, hleft.2⟩
  | bwdCrossComp _ hmatch => exact ⟨proper_filled hleft.1 hmatch hright.1, hleft.2⟩
  | conj => exact hright
  | coord => exact hleft
  | leftPunct => exact hright
  | rightPunct => exact hleft

/-- The categories that can be made from texts: read from one, or made of others that are. -/
inductive Formed : Category → Prop
  | read {s : String} {c : Category} : ofString? s = .ok c → Formed c
  | raise {x t : Category} (slash : Slash) : Formed x → Formed t → Formed (x.raise t slash)
  | substitute {c pattern actual : Category} {b : Binding} : Formed c → Formed pattern → Formed actual →
      pattern.matches? actual = some b → Formed (c.substitute b)
  | result {k : Combinator} {left right c : Category} : Formed left → Formed right →
      k.result? left right = some c → Formed c

theorem Formed.proper {c : Category} (h : c.Formed) : c.Proper := by
  induction h with
  | read hread => exact proper_of_read hread
  | raise slash _ _ hx ht => exact proper_raise hx ht slash
  | substitute _ _ _ hmatch hc _ hactual => exact proper_filled hactual hmatch hc
  | result _ _ hresult hleft hright => exact proper_result? hleft hright hresult

theorem ofString?_text {c : Category} (hc : c.Proper) : ofString? c.text = .ok c := by
  rw [ofString?, text, String.toList_ofList, read_chars hc]

/-- Proper categories are read back from their texts, so no two of them have the same text; they are all that can
be made from texts by reading, raising, filling in and combining. -/
theorem text_proper (c : Category) :
    (c.Proper → ofString? c.text = .ok c) ∧ (c.Formed ↔ c.Proper) ∧
      ∀ c' : Category, c.Proper → c'.Proper → c.text = c'.text → c = c' := by
  refine ⟨ofString?_text, ⟨Formed.proper, fun hc => .read (ofString?_text hc)⟩, fun c' hc hc' htext => ?_⟩
  have hread : ofString? c.text = .ok c' := htext ▸ ofString?_text hc'
  exact Except.ok.inj ((ofString?_text hc).symm.trans hread)

/-- A feature that spells the mark would have the text of a conjunct. -/
example : text (atom "NP" (some "conj")) = text (conj (atom "NP" none)) := by decide

def marked : Category :=
  functor (conj (conj (functor (atom "S" none) .backward (conj (atom "NP" none))))) .forward
    (conj (atom "S" (some "dcl")))

theorem text_proper_marked : marked.Proper ∧ marked.text = "(S\\NP[conj])[conj][conj]/S[dcl][conj]" ∧
    ofString? "(S\\NP[conj])[conj][conj]/S[dcl][conj]" = .ok marked ∧ marked.Formed := by
  have hclause : ProperBase "S" := .inl ⟨by decide, List.all_eq_true.mp (by decide)⟩
  have hnp : ProperBase "NP" := .inl ⟨by decide, List.all_eq_true.mp (by decide)⟩
  have hproper : marked.Proper := by
    refine ⟨⟨⟨hclause, by simp⟩, hnp, by simp⟩, hclause, ?_⟩
    intro f hf
    cases hf
    exact ⟨by decide, List.all_eq_true.mp (by decide), by decide⟩
  have htext : marked.text = "(S\\NP[conj])[conj][conj]/S[dcl][conj]" := by decide
  obtain ⟨hread, hformed, -⟩ := text_proper marked
  exact ⟨hproper, htext, htext ▸ hread hproper, hformed.mpr hproper⟩

end Category

end Categorial
