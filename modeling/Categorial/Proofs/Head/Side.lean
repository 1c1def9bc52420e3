import Categorial.Proofs.Grammar.Contents
import Categorial.Proofs.Grammar.Making
set_option autoImplicit false

namespace Categorial

namespace Side

def opposite : Side → Side
  | left => right
  | right => left

def pick {β : Type} : Side → β → β → β
  | left, l, _ => l
  | right, _, r => r

theorem forall_pick {β : Type} {P : β → Prop} {l r : β} (hl : P l) (hr : P r) :
    ∀ s : Side, P (s.pick l r)
  | left => hl
  | right => hr

end Side

def Combinator.functorSide? : Combinator → Option Side
  | fwdApp => some .left
  | fwdComp => some .left
  | bwdApp => some .right
  | bwdComp => some .right
  | bwdCrossComp => some .right
  | _ => none

def Combinator.composes : Combinator → Bool
  | fwdComp => true
  | bwdComp => true
  | bwdCrossComp => true
  | _ => false

/-- The argument, the outermost being 0, that a phrase awaits to have its head from it, if its functor and
its argument await these. `none` awaits no argument. -/
def Combinator.awaited? (c : Combinator) : Option Nat → Option Nat → Option Nat
  | none, _ => none
  | some 0, arg => if c.composes then arg.filter (· == 0) else arg
  | some (k + 1), _ => some (if c.composes then k + 1 else k)

namespace Grammar

/-- The head of a phrase whose functor has this category is that of its outermost argument. -/
def headFromOuter (g : Grammar) (c : CatId) : Bool :=
  (g.category? c).elim false (g.markup c).headFromOuter

/-- The argument, the outermost being 0, that has the head of a word of this category. -/
def headArgument? (g : Grammar) (c : CatId) : Option Nat :=
  (g.markup c).headSlot.bind fun slot =>
    if 1 ≤ slot ∧ slot ≤ g.arityOf c then some (g.arityOf c - slot) else none

theorem headFromOuter_eq_true_iff {g : Grammar} {c : CatId} :
    g.headFromOuter c = true ↔ g.headArgument? c = some 0 := by
  have harity : g.headFromOuter c = true ↔ 1 ≤ g.arityOf c ∧ (g.markup c).headSlot = some (g.arityOf c) := by
    unfold headFromOuter arityOf
    rcases g.category? c with _ | _ | _ <;>
      simp [Markup.headFromOuter, Category.isFunctor, Category.arity]
  rw [harity, headArgument?]
  rcases (g.markup c).headSlot with _ | slot
  · simp
  · simp only [Option.some.injEq, Option.bind_some]
    split
    · rw [Option.some.injEq]
      omega
    · simp only [reduceCtorEq, iff_false]
      omega

end Grammar

namespace GrammarBuilder

variable {b : GrammarBuilder} {gid : Nat} {g : Grammar}

theorem markup_eq (b : GrammarBuilder) (c : Category) : b.markup c =
    ((b.markups.find? fun e => e.1 == c).map Prod.snd).getD (.default c) := by
  unfold markup
  split
  · rename_i _ m hfind
    exact (congrArg (fun e => (e.map Prod.snd).getD (.default c)) hfind).symm
  · rename_i hfind
    exact (congrArg (fun e => (e.map Prod.snd).getD (.default c)) hfind).symm

theorem markup_of_build (h : b.build gid = .ok g) {id : CatId} {c : Category}
    (hc : b.categories[id]? = some c) : g.markup id = b.markup c := by
  obtain ⟨_, _, ⟨hcategories, _, hmarkups, _, _⟩, _⟩ := Grammar.contents_ofRules (ofRules_of_build h)
  rw [markup_eq]
  unfold Grammar.markup
  rw [hmarkups]
  split
  · rename_i _ id' m hfind
    obtain rfl : id' = id := by simpa using List.find?_some hfind
    obtain ⟨c', entry, hc', hentry, rfl⟩ := mem_codebookMarkups_iff.mp (List.mem_of_find?_eq_some hfind)
    cases hc.symm.trans hc'
    exact (congrArg (fun e => (e.map Prod.snd).getD (.default c)) hentry).symm
  · rename_i hfind
    cases hentry : b.markups.find? fun e => e.1 == c with
    | some entry =>
      have hmem : (id, entry.2) ∈ b.codebookMarkups :=
        mem_codebookMarkups_iff.mpr ⟨c, entry, hc, hentry, rfl⟩
      have hne := List.find?_eq_none.mp hfind _ hmem
      simp at hne
    | none =>
      rw [Grammar.category?, hcategories, hc]
      rfl

theorem headFromOuter_of_build (h : b.build gid = .ok g) {id : CatId} {c : Category}
    (hc : b.categories[id]? = some c) : g.headFromOuter id = (b.markup c).headFromOuter c := by
  obtain ⟨_, _, ⟨hcategories, _, _, _, _⟩, _⟩ := Grammar.contents_ofRules (ofRules_of_build h)
  rw [Grammar.headFromOuter, Grammar.category?, hcategories, hc, markup_of_build h hc]
  rfl

theorem headSide_of_functorSide? {combinator : Combinator} {side : Side}
    (h : combinator.functorSide? = some side) (left right : Category) :
    b.headSide combinator left right =
      if (b.markup (side.pick left right)).headFromOuter (side.pick left right) then side.opposite
      else side := by
  cases combinator <;> cases h <;> rfl

theorem ruleType_of_mem_rules {r : Rule} (hr : r ∈ b.rules) {left right : CatId}
    (hp : r.production = .binary left right) :
    r.ruleType = b.ruleType ⟨left, right, r.combinator, r.result⟩ := by
  obtain ⟨⟨make, id⟩, hmem, rfl⟩ := List.mem_map.mp hr
  have hmake := List.fst_mem_of_mem_zipIdx hmem
  simp only [unnumbered, List.mem_append, List.mem_map] at hmake
  rcases hmake with ((⟨_, _, rfl⟩ | ⟨⟨key, n⟩, _, rfl⟩) | ⟨_, _, rfl⟩) | ⟨_, _, rfl⟩
  · cases hp
  · cases hp
    rfl
  · cases hp
  · cases hp

theorem headSide?_of_build (h : b.build gid = .ok g) {id : RuleId} {r : Rule} (hr : g.rule? id = some r)
    {left right : CatId} (hp : r.production = .binary left right) {side : Side}
    (hside : r.combinator.functorSide? = some side) :
    r.headSide? = some (if g.headFromOuter (side.pick left right) then side.opposite else side) := by
  obtain ⟨_, _, ⟨hcategories, _, _, _, hinRange⟩, hrules⟩ :=
    Grammar.contents_ofRules (ofRules_of_build h)
  have hmem : r ∈ g.rules := Array.mem_of_getElem? hr
  have htype := ruleType_of_mem_rules (hrules ▸ Array.mem_toList_iff.mpr hmem) hp
  have hcategory (c : CatId) (hc : r.production.left? = some c ∨ r.production.right? = some c) :
      ∃ category, b.categories[c]? = some category := by
    have hlt := (hinRange r hmem).2 c hc
    rw [Grammar.size, hcategories] at hlt
    exact ⟨_, Array.getElem?_eq_getElem hlt⟩
  obtain ⟨l, hl⟩ := hcategory left (.inl (by simp [hp, Production.left?]))
  obtain ⟨r', hr'⟩ := hcategory right (.inr (by simp [hp, Production.right?]))
  have hpick : b.categories[side.pick left right]? = some (side.pick l r') := by
    cases side with
    | left => exact hl
    | right => exact hr'
  rw [Rule.headSide?, htype, ruleType]
  simp only [hl, hr', RuleType.headSide?_ofHeadSide]
  rw [headSide_of_functorSide? hside, headFromOuter_of_build h hpick]

end GrammarBuilder

end Categorial
