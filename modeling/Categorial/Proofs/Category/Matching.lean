import Categorial.Category.Basic
set_option autoImplicit false

/-!
What matching asks of two categories, told place by place. They have the same shape, the features that are written on
both sides agree, and all features that the pattern's open S atoms meet are the same one, which is the binding. Filled
into the pattern, the binding leaves nothing open that the other category has a feature for.
-/

namespace Categorial

namespace Category

/-- The ways from a category down to a part of it. -/
inductive Turn where
  | result
  | arg
  | inner
  deriving DecidableEq, Repr

def part? : Category → Turn → Option Category
  | functor x _ _, .result => some x
  | functor _ _ y, .arg => some y
  | conj x, .inner => some x
  | _, _ => none

/-- What stands at a place, which is given by the way down to it. -/
def at? : Category → List Turn → Option Category
  | c, [] => some c
  | c, turn :: place => (c.part? turn).bind fun part => part.at? place

/-- The same slashes, marks of conjuncts and bases, in the same places. -/
def Alike : Category → Category → Prop
  | atom base _, atom base' _ => base = base'
  | functor x s y, functor x' s' y' => s = s' ∧ x.Alike x' ∧ y.Alike y'
  | conj x, conj x' => x.Alike x'
  | _, _ => False

def Agree (pattern actual : Category) : Prop :=
  ∀ place base base' f f', pattern.at? place = some (atom base (some f)) →
    actual.at? place = some (atom base' (some f')) → f = f'

def Meets (pattern actual : Category) (f : String) : Prop :=
  ∃ place base, pattern.at? place = some (atom "S" none) ∧ actual.at? place = some (atom base (some f))

section

variable {x y x' y' c : Category} {s s' : Slash} {base base' : String} {feature feature' : Option String} {f : String}

theorem at?_atom {place : List Turn} :
    (atom base feature).at? place = some c ↔ place = [] ∧ atom base feature = c := by
  cases place <;> simp [at?, part?]

theorem at?_functor {place : List Turn} : (functor x s y).at? place = some (atom base feature) ↔
    (∃ rest, place = .result :: rest ∧ x.at? rest = some (atom base feature)) ∨
      ∃ rest, place = .arg :: rest ∧ y.at? rest = some (atom base feature) := by
  match place with
  | [] => simp [at?]
  | .result :: _ => simp [at?, part?]
  | .arg :: _ => simp [at?, part?]
  | .inner :: _ => simp [at?, part?]

theorem at?_conj {place : List Turn} : (conj x).at? place = some (atom base feature) ↔
    ∃ rest, place = .inner :: rest ∧ x.at? rest = some (atom base feature) := by
  match place with
  | [] => simp [at?]
  | .inner :: _ => simp [at?, part?]
  | .result :: _ => simp [at?, part?]
  | .arg :: _ => simp [at?, part?]

theorem meets_atom : (atom base feature).Meets (atom base' feature') f ↔
    base = "S" ∧ feature = none ∧ feature' = some f := by
  constructor
  · rintro ⟨place, base₀, hpattern, hactual⟩
    obtain ⟨rfl, heq⟩ := at?_atom.mp hpattern
    cases heq
    cases hactual
    exact ⟨rfl, rfl, rfl⟩
  · rintro ⟨rfl, rfl, rfl⟩
    exact ⟨[], base', rfl, rfl⟩

theorem meets_functor : (functor x s y).Meets (functor x' s' y') f ↔ x.Meets x' f ∨ y.Meets y' f := by
  constructor
  · rintro ⟨place, base, hpattern, hactual⟩
    obtain ⟨rest, rfl, hpart⟩ | ⟨rest, rfl, hpart⟩ := at?_functor.mp hpattern
    · exact .inl ⟨rest, base, hpart, hactual⟩
    · exact .inr ⟨rest, base, hpart, hactual⟩
  · rintro (⟨place, base, hpattern, hactual⟩ | ⟨place, base, hpattern, hactual⟩)
    · exact ⟨.result :: place, base, hpattern, hactual⟩
    · exact ⟨.arg :: place, base, hpattern, hactual⟩

theorem meets_conj : (conj x).Meets (conj x') f ↔ x.Meets x' f := by
  constructor
  · rintro ⟨place, base, hpattern, hactual⟩
    obtain ⟨rest, rfl, hpart⟩ := at?_conj.mp hpattern
    exact ⟨rest, base, hpart, hactual⟩
  · rintro ⟨place, base, hpattern, hactual⟩
    exact ⟨.inner :: place, base, hpattern, hactual⟩

theorem agree_atom : (atom base feature).Agree (atom base' feature') ↔
    ∀ f f', feature = some f → feature' = some f' → f = f' := by
  constructor
  · rintro h f f' rfl rfl
    exact h [] base base' f f' rfl rfl
  · intro h place base₀ base₁ f f' hpattern hactual
    obtain ⟨rfl, heq⟩ := at?_atom.mp hpattern
    cases heq
    cases hactual
    exact h f f' rfl rfl

theorem agree_functor : (functor x s y).Agree (functor x' s' y') ↔ x.Agree x' ∧ y.Agree y' := by
  constructor
  · exact fun h => ⟨fun place => h (.result :: place), fun place => h (.arg :: place)⟩
  · rintro ⟨hx, hy⟩ place base base' f f' hpattern hactual
    obtain ⟨rest, rfl, hpart⟩ | ⟨rest, rfl, hpart⟩ := at?_functor.mp hpattern
    · exact hx rest base base' f f' hpart hactual
    · exact hy rest base base' f f' hpart hactual

theorem agree_conj : (conj x).Agree (conj x') ↔ x.Agree x' := by
  constructor
  · exact fun h place => h (.inner :: place)
  · intro h place base base' f f' hpattern hactual
    obtain ⟨rest, rfl, hpart⟩ := at?_conj.mp hpattern
    exact h rest base base' f f' hpart hactual

end

/-! The binding is told by the features that it stands for: at most one. -/

theorem exists_binding {P : String → Prop} (h : ∀ f g, P f → P g → f = g) :
    ∃ b : Binding, ∀ f, b = some f ↔ P f := by
  by_cases hsome : ∃ f, P f
  · obtain ⟨f, hf⟩ := hsome
    refine ⟨some f, fun g => ⟨fun hg => Option.some.inj hg ▸ hf, fun hg => congrArg some (h f g hf hg)⟩⟩
  · exact ⟨none, fun f => ⟨nofun, fun hf => absurd ⟨f, hf⟩ hsome⟩⟩

theorem eq_of_binding {P : String → Prop} {b : Binding} (h : ∀ f, b = some f ↔ P f) {f g : String} (hf : P f)
    (hg : P g) : f = g :=
  Option.some.inj (((h f).mpr hf).symm.trans ((h g).mpr hg))

theorem binding_ext {P : String → Prop} {b b' : Binding} (h : ∀ f, b = some f ↔ P f)
    (h' : ∀ f, b' = some f ↔ P f) : b = b' :=
  Option.ext fun f => (h f).trans (h' f).symm

theorem Binding.bind_eq_some_iff {b b' : Binding} {f : String} :
    b.bind f = some b' ↔ ∀ g, b' = some g ↔ b = some g ∨ f = g := by
  cases b with
  | none =>
    simp only [Binding.bind, Option.some.injEq, reduceCtorEq, false_or]
    exact ⟨fun h g => by rw [← h, Option.some.injEq], fun h => ((h f).mpr rfl).symm⟩
  | some f₀ =>
    by_cases hf : f₀ = f
    · simp only [Binding.bind, hf, if_true, Option.some.injEq, or_self]
      exact ⟨fun h g => by rw [← h, Option.some.injEq], fun h => ((h f).mpr rfl).symm⟩
    · simp only [Binding.bind, hf, if_false, Option.some.injEq, reduceCtorEq, false_iff]
      exact fun h => hf (eq_of_binding h (.inl rfl) (.inr rfl))

theorem unify_atom (b : Binding) (base : String) (feature feature' : Option String) :
    unify b (atom base feature) (atom base feature') =
      match feature, feature' with
      | some f, some f' => if f = f' then some b else none
      | none, some f => if base = "S" then b.bind f else some b
      | _, none => some b := by
  cases feature <;> cases feature' <;> simp [unify]

/-- Matching keeps what was bound before and adds the features that are met. The induction is on the pattern, and
carries the binding from the result of a functor over to its argument. -/
theorem unify_eq_some_iff {pattern actual : Category} {b b' : Binding} :
    unify b pattern actual = some b' ↔ pattern.Alike actual ∧ pattern.Agree actual ∧
      ∀ f, b' = some f ↔ b = some f ∨ pattern.Meets actual f := by
  induction pattern generalizing actual b b' with
  | atom base feature =>
    cases actual with
    | atom base' feature' =>
      simp only [Alike, agree_atom, meets_atom]
      by_cases hbase : base = base'
      · subst hbase
        rw [unify_atom]
        have hsame : (∀ f, b' = some f ↔ b = some f) ↔ b = b' :=
          ⟨binding_ext fun _ => Iff.rfl, fun h f => by rw [h]⟩
        cases feature with
        | some f =>
          cases feature' with
          | some f' => by_cases hf : f = f' <;> simp [hf, hsame]
          | none => simp [hsame]
        | none =>
          cases feature' with
          | some f' =>
            by_cases hS : base = "S"
            · simp [hS, Binding.bind_eq_some_iff]
            · simp [hS, hsame]
          | none => simp [hsame]
      · simp [unify, hbase]
    | functor _ _ _ => simp [unify, Alike]
    | conj _ => simp [unify, Alike]
  | functor x s y hx hy =>
    cases actual with
    | functor x' s' y' =>
      simp only [Alike, agree_functor, meets_functor]
      by_cases hs : s = s'
      · subst hs
        simp only [unify, if_true, true_and, Option.bind_eq_some_iff, hx, hy]
        constructor
        · rintro ⟨met, ⟨hx, hagree, hmet⟩, hy, hagree', hb'⟩
          exact ⟨⟨hx, hy⟩, ⟨hagree, hagree'⟩, fun f => by rw [hb', hmet, or_assoc]⟩
        · rintro ⟨⟨hx, hy⟩, ⟨hagree, hagree'⟩, hb'⟩
          -- what the result of the functor has met is bound in the end
          obtain ⟨met, hmet⟩ := exists_binding (P := fun f => b = some f ∨ x.Meets x' f) fun f g hf hg =>
            eq_of_binding hb' (hf.imp_right .inl) (hg.imp_right .inl)
          exact ⟨met, ⟨hx, hagree, hmet⟩, hy, hagree', fun f => by rw [hb', hmet, or_assoc]⟩
      · simp [unify, hs]
    | atom _ _ => simp [unify, Alike]
    | conj _ => simp [unify, Alike]
  | conj x ih =>
    cases actual with
    | conj x' => simp only [unify, Alike, agree_conj, meets_conj, ih]
    | atom _ _ => simp [unify, Alike]
    | functor _ _ _ => simp [unify, Alike]

theorem matches?_eq_some_iff {pattern actual : Category} {b : Binding} :
    pattern.matches? actual = some b ↔ pattern.Alike actual ∧ pattern.Agree actual ∧
      ∀ f, b = some f ↔ pattern.Meets actual f := by
  simp [matches?, unify_eq_some_iff]

/-! Filling in what was met. -/

theorem exists_substitute_atom (b : Binding) (base : String) (feature : Option String) :
    ∃ feature', (atom base feature).substitute b = atom base feature' := by
  unfold substitute
  split
  · split <;> exact ⟨_, rfl⟩
  · exact ⟨_, rfl⟩

theorem at?_substitute (b : Binding) (c : Category) (place : List Turn) :
    (c.substitute b).at? place = (c.at? place).map (substitute b) := by
  induction c generalizing place with
  | atom base feature =>
    obtain ⟨feature', hatom⟩ := exists_substitute_atom b base feature
    cases place with
    | nil => rfl
    | cons _ _ =>
      rw [hatom]
      rfl
  | functor x s y hx hy =>
    match place with
    | [] => rfl
    | .result :: place => exact hx place
    | .arg :: place => exact hy place
    | .inner :: _ => rfl
  | conj x ih =>
    match place with
    | [] => rfl
    | .inner :: place => exact ih place
    | .result :: _ => rfl
    | .arg :: _ => rfl

theorem substitute_eq_atom_some {b : Binding} {c : Category} {base f : String} :
    c.substitute b = atom base (some f) ↔
      c = atom base (some f) ∨ c = atom "S" none ∧ base = "S" ∧ b = some f := by
  cases c with
  | atom base' feature =>
    cases feature with
    | some f' => simp [substitute]
    | none =>
      cases b with
      | none => simp [substitute]
      | some f' =>
        by_cases hS : base' = "S"
        · simp [substitute, hS, eq_comm]
        · simp [substitute, hS]
  | functor x s y => simp [substitute]
  | conj x => simp [substitute]

theorem substitute_eq_open {b : Binding} {c : Category} :
    c.substitute b = atom "S" none ↔ c = atom "S" none ∧ b = none := by
  cases c with
  | atom base feature =>
    cases feature with
    | some f => simp [substitute]
    | none =>
      cases b with
      | none => simp [substitute]
      | some f => by_cases hS : base = "S" <;> simp [substitute, hS]
  | functor x s y => simp [substitute]
  | conj x => simp [substitute]

theorem alike_substitute {b : Binding} {pattern actual : Category} (h : pattern.Alike actual) :
    (pattern.substitute b).Alike actual := by
  induction pattern generalizing actual with
  | atom base feature =>
    obtain ⟨feature', hatom⟩ := exists_substitute_atom b base feature
    rw [hatom]
    cases actual with
    | atom _ _ => exact h
    | _ => cases h
  | functor x s y hx hy =>
    cases actual with
    | functor x' s' y' => exact ⟨h.1, hx h.2.1, hy h.2.2⟩
    | _ => cases h
  | conj x ih =>
    cases actual with
    | conj x' => exact ih h
    | _ => cases h

theorem Alike.exists_atom {pattern actual : Category} (h : pattern.Alike actual) {place : List Turn} {base : String}
    {feature : Option String} (hactual : actual.at? place = some (atom base feature)) :
    ∃ feature', pattern.at? place = some (atom base feature') := by
  induction pattern generalizing actual place with
  | atom base' feature' =>
    cases actual with
    | atom base₀ feature₀ =>
      obtain ⟨rfl, heq⟩ := at?_atom.mp hactual
      cases heq
      exact ⟨feature', congrArg (fun base => some (atom base feature')) h⟩
    | _ => cases h
  | functor x s y hx hy =>
    cases actual with
    | functor x' s' y' =>
      obtain ⟨rest, rfl, hpart⟩ | ⟨rest, rfl, hpart⟩ := at?_functor.mp hactual
      · exact hx h.2.1 hpart
      · exact hy h.2.2 hpart
    | _ => cases h
  | conj x ih =>
    cases actual with
    | conj x' =>
      obtain ⟨rest, rfl, hpart⟩ := at?_conj.mp hactual
      exact ih h hpart
    | _ => cases h

section

variable {pattern actual : Category} {b : Binding} {place : List Turn} {base base' f f' : String}

theorem agree_substitute (h : pattern.matches? actual = some b) : (pattern.substitute b).Agree actual := by
  obtain ⟨-, hagree, hmeets⟩ := matches?_eq_some_iff.mp h
  intro place base base' f f' hfilled hactual
  rw [at?_substitute] at hfilled
  obtain ⟨part, hpart, hfill⟩ := Option.map_eq_some_iff.mp hfilled
  obtain rfl | ⟨rfl, -, hbound⟩ := substitute_eq_atom_some.mp hfill
  · exact hagree place base base' f f' hpart hactual
  · have hmet : b = some f' := (hmeets f').mpr ⟨place, base', hpart, hactual⟩
    exact Option.some.inj (hbound.symm.trans hmet)

theorem not_meets_substitute (h : pattern.matches? actual = some b) : ¬ (pattern.substitute b).Meets actual f := by
  rintro ⟨place, base, hfilled, hactual⟩
  obtain ⟨-, -, hmeets⟩ := matches?_eq_some_iff.mp h
  rw [at?_substitute] at hfilled
  obtain ⟨part, hpart, hfill⟩ := Option.map_eq_some_iff.mp hfilled
  obtain ⟨rfl, hnone⟩ := substitute_eq_open.mp hfill
  cases hnone.symm.trans ((hmeets f).mpr ⟨place, base, hpart, hactual⟩)

theorem at?_substitute_of_matches? (h : pattern.matches? actual = some b)
    (hactual : actual.at? place = some (atom "S" (some f))) :
    (pattern.substitute b).at? place = some (atom "S" (some f)) := by
  obtain ⟨halike, hagree, hmeets⟩ := matches?_eq_some_iff.mp h
  obtain ⟨feature, hpart⟩ := halike.exists_atom hactual
  rw [at?_substitute, hpart, Option.map_some]
  refine congrArg some (substitute_eq_atom_some.mpr ?_)
  cases feature with
  | some f' => exact .inl (by rw [hagree place "S" "S" f' f hpart hactual])
  | none => exact .inr ⟨rfl, rfl, (hmeets f).mpr ⟨place, "S", hpart, hactual⟩⟩

end

/-- A pattern matches the categories of its shape that do not differ in a feature and show its open S atoms one
feature at most, which is then the binding. Filled in, the pattern has every feature that the category has on an S, and
matches it with nothing left to bind. -/
theorem matches?_iff_alike (pattern actual : Category) :
    ((∃ b, pattern.matches? actual = some b) ↔ pattern.Alike actual ∧ pattern.Agree actual ∧
        ∀ f g, pattern.Meets actual f → pattern.Meets actual g → f = g) ∧
      ∀ b, pattern.matches? actual = some b → (∀ f, b = some f ↔ pattern.Meets actual f) ∧
        (∀ place f, actual.at? place = some (atom "S" (some f)) →
          (pattern.substitute b).at? place = some (atom "S" (some f))) ∧
        (pattern.substitute b).matches? actual = some none := by
  refine ⟨⟨?_, ?_⟩, fun b h => ?_⟩
  · rintro ⟨b, h⟩
    obtain ⟨halike, hagree, hmeets⟩ := matches?_eq_some_iff.mp h
    exact ⟨halike, hagree, fun f g => eq_of_binding hmeets⟩
  · rintro ⟨halike, hagree, hone⟩
    obtain ⟨b, hb⟩ := exists_binding hone
    exact ⟨b, matches?_eq_some_iff.mpr ⟨halike, hagree, hb⟩⟩
  · obtain ⟨halike, -, hmeets⟩ := matches?_eq_some_iff.mp h
    refine ⟨hmeets, fun place f => at?_substitute_of_matches? h, matches?_eq_some_iff.mpr ?_⟩
    exact ⟨alike_substitute halike, agree_substitute h, fun f => iff_of_false nofun (not_meets_substitute h)⟩

/-- A modifier of clauses with a mark on its argument, and clauses that it modifies: one has a feature in three places,
of which the modifier leaves two open. -/
def clauseModifier : Category :=
  functor (functor (atom "S" none) .backward (atom "NP" none)) .forward
    (conj (functor (atom "S" none) .backward (functor (atom "S" (some "dcl")) .forward (atom "NP" none))))

def declarative (feature : Option String) : Category :=
  functor (functor (atom "S" (some "dcl")) .backward (atom "NP" (some "nb"))) .forward
    (conj (functor (atom "S" feature) .backward (functor (atom "S" none) .forward (atom "NP" none))))

/-- The two open places are far apart, and still cannot differ. -/
example : clauseModifier.matches? (declarative (some "b")) = none := by decide

theorem matches?_iff_alike_declarative :
    clauseModifier.matches? (declarative (some "dcl")) = some (some "dcl") ∧
      clauseModifier.Meets (declarative (some "dcl")) "dcl" ∧
      (clauseModifier.substitute (some "dcl")).text = "(S[dcl]\\NP)/(S[dcl]\\(S[dcl]/NP))[conj]" ∧
      (clauseModifier.substitute (some "dcl")).matches? (declarative (some "dcl")) = some none := by
  have hmatch : clauseModifier.matches? (declarative (some "dcl")) = some (some "dcl") := by decide
  obtain ⟨hmeets, -, hagain⟩ := (matches?_iff_alike clauseModifier (declarative (some "dcl"))).2 _ hmatch
  exact ⟨hmatch, (hmeets "dcl").mp rfl, by decide, hagain⟩

end Category

end Categorial
