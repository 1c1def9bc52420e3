import Categorial.Grammar.Schema
set_option autoImplicit false

namespace Categorial

theorem Slash.opposite_inj {s s' : Slash} : s.opposite = s'.opposite ↔ s = s' := by
  cases s <;> cases s' <;> decide

namespace Category

@[simp] theorem flipped_atom (base : String) (feature : Option String) :
    (atom base feature).flipped = atom base feature := rfl

@[simp] theorem flipped_functor (x y : Category) (s : Slash) :
    (functor x s y).flipped = functor x.flipped s.opposite y.flipped := rfl

@[simp] theorem flipped_conj (x : Category) : (conj x).flipped = conj x.flipped := rfl

@[simp] theorem isPunct_flipped (c : Category) : c.flipped.isPunct = c.isPunct := by
  cases c <;> rfl

/-- Matching goes through the places in the same order on both sides of the mirror. -/
theorem unify_flipped (b : Binding) (pattern actual : Category) :
    unify b pattern.flipped actual.flipped = unify b pattern actual := by
  induction pattern generalizing actual b with
  | atom base feature => cases actual <;> rfl
  | functor x s y hx hy =>
    cases actual with
    | atom _ _ => rfl
    | functor x' s' y' => simp only [flipped_functor, unify, Slash.opposite_inj, hx, hy]
    | conj _ => rfl
  | conj x ih =>
    cases actual with
    | atom _ _ => rfl
    | functor _ _ _ => rfl
    | conj x' => exact ih b x'

theorem matches?_flipped (pattern actual : Category) :
    pattern.flipped.matches? actual.flipped = pattern.matches? actual := unify_flipped none pattern actual

theorem substitute_flipped (b : Binding) (c : Category) : (c.substitute b).flipped = c.flipped.substitute b := by
  induction c with
  | atom base feature =>
    simp only [flipped_atom, substitute]
    split
    · split <;> rfl
    · rfl
  | functor x s y hx hy => simp only [substitute, flipped_functor, hx, hy]
  | conj x ih => simp only [substitute, flipped_conj, ih]

theorem raise_flipped (x t : Category) (slash : Slash) :
    (raise x t slash).flipped = raise x.flipped t.flipped slash.opposite := rfl

end Category

namespace Combinator

open Category

theorem map_flipped_fwdApp (l r : Category) :
    (fwdApp.result? l r).map flipped = bwdApp.result? r.flipped l.flipped := by
  match l with
  | .functor x .forward y =>
    simp only [result?, flipped_functor, Slash.opposite, matches?_flipped, Option.map_map]
    congr 1
    exact funext fun b => substitute_flipped b x
  | .functor _ .backward _ | .atom _ _ | .conj _ => rfl

theorem map_flipped_fwdComp (l r : Category) :
    (fwdComp.result? l r).map flipped = bwdComp.result? r.flipped l.flipped := by
  match l, r with
  | .functor x .forward y, .functor u .forward z =>
    simp only [result?, flipped_functor, Slash.opposite, matches?_flipped, Option.map_map]
    congr 1
    exact funext fun b => by simp only [Function.comp, flipped_functor, Slash.opposite, substitute_flipped]
  | .functor _ .forward _, .functor _ .backward _ | .functor _ .forward _, .atom _ _
  | .functor _ .forward _, .conj _ => rfl
  -- the second neighbour is looked at first in the mirror
  | .functor _ .backward _, r | .atom _ _, r | .conj _, r =>
    cases r with
    | functor _ s _ => cases s <;> rfl
    | _ => rfl

theorem map_flipped_leftPunct (l r : Category) :
    (leftPunct.result? l r).map flipped = rightPunct.result? r.flipped l.flipped := by
  simp only [result?, isPunct_flipped]
  split <;> rfl

/-- The forward schemas are the backward ones in the mirror, each applying where the other does, and so is raising. -/
theorem map_flipped_result? (l r x t : Category) :
    (fwdApp.result? l r).map flipped = bwdApp.result? r.flipped l.flipped ∧
      (fwdComp.result? l r).map flipped = bwdComp.result? r.flipped l.flipped ∧
      (leftPunct.result? l r).map flipped = rightPunct.result? r.flipped l.flipped ∧
      (raise x t .forward).flipped = raise x.flipped t.flipped .backward :=
  ⟨map_flipped_fwdApp l r, map_flipped_fwdComp l r, map_flipped_leftPunct l r, raise_flipped x t .forward⟩

/-- A verb phrase modifier before a verb phrase with a feature, and both in the mirror. -/
example :
    let veryModifier := functor (functor (atom "S" none) .backward (atom "NP" none)) .forward
      (functor (atom "S" none) .backward (atom "NP" none))
    let verbPhrase := functor (atom "S" (some "dcl")) .backward (atom "NP" none)
    bwdApp.result? verbPhrase.flipped veryModifier.flipped =
      some (functor (atom "S" (some "dcl")) .forward (atom "NP" none)) := by decide

end Combinator

end Categorial
