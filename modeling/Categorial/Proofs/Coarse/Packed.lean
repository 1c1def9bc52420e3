import Categorial.Derivation.Basic
import Categorial.Proofs.Coarse.Derivable
set_option autoImplicit false

namespace Categorial

namespace CoarseStep

def children : CoarseStep → List CoarseId
  | lexical _ _ => []
  | unary _ child => [child]
  | binary _ left right => [left, right]

def rule : CoarseStep → RuleId
  | lexical r _ => r
  | unary r _ => r
  | binary r _ _ => r

end CoarseStep

/-- The level of the items under which a derivation is packed. -/
def Derivation.level : Derivation → Level
  | branch _ _ [_] => .unary
  | _ => .base

namespace CoarseChart

variable {α : Type}

/-- The derivations under an item: one of its steps, with a derivation under each item that it takes. -/
inductive Packs (c : CoarseChart α) : CoarseId → Derivation → Prop where
  | lexical {id : CoarseId} {item : CoarseItem} {rule : RuleId} {word : Nat} :
      c.item? id = some item → .lexical rule word ∈ item.steps →
      Packs c id (.leaf ⟨item.cat, rule⟩ item.span)
  | unary {id child : CoarseId} {item : CoarseItem} {rule : RuleId} {t : Derivation} :
      c.item? id = some item → .unary rule child ∈ item.steps → Packs c child t →
      Packs c id (.branch ⟨item.cat, rule⟩ item.span [t])
  | binary {id l r : CoarseId} {item : CoarseItem} {rule : RuleId} {left right : Derivation} :
      c.item? id = some item → .binary rule l r ∈ item.steps → Packs c l left → Packs c r right →
      Packs c id (.branch ⟨item.cat, rule⟩ item.span [left, right])

/-- A derivation of the whole sentence with a start category at its root. -/
def Packed (c : CoarseChart α) (t : Derivation) : Prop :=
  ∃ id item, (id, item) ∈ c.itemsOver c.wholeSpan ∧ c.grammar.isStart item.cat = true ∧ c.Packs id t

theorem item?_of_mem {c : CoarseChart α} {span : Span} {id : CoarseId} {item : CoarseItem}
    (h : (id, item) ∈ c.itemsOver span) : c.item? id = some item := by
  simp only [itemsOver, List.mem_filterMap, Option.map_eq_some_iff, Prod.mk.injEq] at h
  obtain ⟨_, _, x, hx, rfl, rfl⟩ := h
  exact hx

variable [Scalar α] {c : CoarseChart α} {tags : Supertags α}

theorem LastStep.child {span : Span} {cat : CatId} {level : Level} {step : CoarseStep}
    (h : c.LastStep tags span cat level step) (hspan : span.Within c.sentence.length) {id : CoarseId}
    (hid : id ∈ step.children) :
    ∃ sub item, sub.Within c.sentence.length ∧ (id, item) ∈ c.itemsOver sub ∧
      (sub.length < span.length ∨ sub = span ∧ item.level = .base ∧ level = .unary) := by
  obtain ⟨_, hstop⟩ := hspan
  cases h with
  | lexical => simp [CoarseStep.children] at hid
  | @binary rule start mid stop l r left right _ hlt hlt' hl hr =>
    simp only at hstop
    simp only [CoarseStep.children, List.mem_cons, List.not_mem_nil, or_false] at hid
    rcases hid with rfl | rfl
    · exact ⟨_, left, ⟨hlt, by simp only; omega⟩, hl, .inl (by simp only [Span.length]; omega)⟩
    · exact ⟨_, right, ⟨hlt', hstop⟩, hr, .inl (by simp only [Span.length]; omega)⟩
  | unary hchild hbase =>
    obtain rfl := List.mem_singleton.mp hid
    exact ⟨span, _, ⟨by assumption, hstop⟩, hchild, .inr ⟨rfl, hbase, rfl⟩⟩

theorem LastStep.exists_rule (hg : c.grammar.Indexed) {span : Span} {cat : CatId} {level : Level}
    {step : CoarseStep} (h : c.LastStep tags span cat level step) :
    ∃ r, c.grammar.rule? step.rule = some r := by
  cases h with
  | lexical _ hrule =>
    obtain ⟨r, hr, _⟩ := hg.rule_of_lexicalRule? hrule
    exact ⟨r, hr⟩
  | binary _ _ _ _ hrule =>
    obtain ⟨r, hr, _⟩ := hrule
    exact ⟨r, hr⟩
  | unary _ _ hrule =>
    obtain ⟨r, hr, _⟩ := hrule
    exact ⟨r, hr⟩

theorem LastStep.level_eq {span : Span} {cat : CatId} {level : Level} {step : CoarseStep}
    (h : c.LastStep tags span cat level step) :
    level = if step.children.length = 1 then .unary else .base := by
  cases h <;> rfl

theorem LastStep.span_of_lexical {span : Span} {cat : CatId} {level : Level} {rule : RuleId} {word : Nat}
    (h : c.LastStep tags span cat level (.lexical rule word)) : span = Span.word word := by
  generalize hs : CoarseStep.lexical rule word = step at h
  cases h with
  | lexical =>
    cases hs
    rfl
  | binary => cases hs
  | unary => cases hs

theorem LastStep.child_of_unary {span : Span} {cat : CatId} {level : Level} {rule : RuleId}
    {child : CoarseId} (h : c.LastStep tags span cat level (.unary rule child)) :
    ∃ x, (child, x) ∈ c.itemsOver span := by
  generalize hs : CoarseStep.unary rule child = step at h
  cases h with
  | lexical => cases hs
  | binary => cases hs
  | unary hchild =>
    cases hs
    exact ⟨_, hchild⟩

theorem LastStep.children_of_binary {span : Span} {cat : CatId} {level : Level} {rule : RuleId}
    {l r : CoarseId} (h : c.LastStep tags span cat level (.binary rule l r)) :
    ∃ mid left right, span.start < mid ∧ mid < span.stop ∧ (l, left) ∈ c.itemsOver ⟨span.start, mid⟩ ∧
      (r, right) ∈ c.itemsOver ⟨mid, span.stop⟩ := by
  generalize hs : CoarseStep.binary rule l r = step at h
  cases h with
  | lexical => cases hs
  | binary hlt hlt' hl hr =>
    cases hs
    exact ⟨_, _, _, hlt, hlt', hl, hr⟩
  | unary => cases hs

namespace Saturated

variable {span : Span} {id : CoarseId} {item : CoarseItem}

theorem exists_step (hc : c.Saturated tags) (hg : c.grammar.Indexed) (hspan : span.Within c.sentence.length)
    (hmem : (id, item) ∈ c.itemsOver span) : ∃ step, step ∈ item.steps := by
  obtain ⟨step, hstep⟩ := mem_catsOf.mp (hc.mem_itemsOver hspan hmem).1
  exact ⟨step, (hc.mem_steps hg hspan hmem).mpr ((mem_stepsAt hg hspan.1).mp hstep)⟩

theorem child (hc : c.Saturated tags) (hg : c.grammar.Indexed) (hspan : span.Within c.sentence.length)
    (hmem : (id, item) ∈ c.itemsOver span) {step : CoarseStep} (hstep : step ∈ item.steps)
    {child : CoarseId} (hchild : child ∈ step.children) :
    ∃ sub x, sub.Within c.sentence.length ∧ (child, x) ∈ c.itemsOver sub ∧
      (sub.length < span.length ∨ sub = span ∧ x.level = .base ∧ item.level = .unary) :=
  ((hc.mem_steps hg hspan hmem).mp hstep).child hspan hchild

theorem level_eq (hc : c.Saturated tags) (hg : c.grammar.Indexed) (hspan : span.Within c.sentence.length)
    (hmem : (id, item) ∈ c.itemsOver span) {step : CoarseStep} (hstep : step ∈ item.steps) :
    item.level = if step.children.length = 1 then .unary else .base :=
  ((hc.mem_steps hg hspan hmem).mp hstep).level_eq

theorem word_eq (hc : c.Saturated tags) (hg : c.grammar.Indexed) (hspan : span.Within c.sentence.length)
    (hmem : (id, item) ∈ c.itemsOver span) {rule : RuleId} {word : Nat}
    (hstep : .lexical rule word ∈ item.steps) : word = item.span.start := by
  rw [hc.span_eq hspan hmem, ((hc.mem_steps hg hspan hmem).mp hstep).span_of_lexical]
  rfl

theorem span_unique (hc : c.Saturated tags) {a b : Span} (ha : a.Within c.sentence.length)
    (hb : b.Within c.sentence.length) {x y : CoarseItem} (hx : (id, x) ∈ c.itemsOver a)
    (hy : (id, y) ∈ c.itemsOver b) : a = b := by
  rw [← hc.span_eq ha hx, ← hc.span_eq hb hy, item_eq_of_mem hx hy]

theorem packs_unique (hc : c.Saturated tags) (hg : c.grammar.Indexed) {span' : Span} {id' : CoarseId}
    {item' : CoarseItem} (hspan : span.Within c.sentence.length)
    (hspan' : span'.Within c.sentence.length) (hmem : (id, item) ∈ c.itemsOver span)
    (hmem' : (id', item') ∈ c.itemsOver span') {t : Derivation} (h : c.Packs id t)
    (h' : c.Packs id' t) : id = id' ∧ item = item' := by
  have hroot : ∀ {sp : Span} {i : CoarseId} {x : CoarseItem}, sp.Within c.sentence.length →
      (i, x) ∈ c.itemsOver sp → c.Packs i t → x.cat = t.step.cat ∧ sp = t.span ∧
        x.level = t.level := by
    intro sp i x hsp hx hp
    have hget := item?_of_mem hx
    have hs := hc.span_eq hsp hx
    cases hp with
    | lexical hi hstep =>
      cases hget.symm.trans hi
      exact ⟨rfl, hs.symm, hc.level_eq hg hsp hx hstep⟩
    | unary hi hstep =>
      cases hget.symm.trans hi
      exact ⟨rfl, hs.symm, hc.level_eq hg hsp hx hstep⟩
    | binary hi hstep =>
      cases hget.symm.trans hi
      exact ⟨rfl, hs.symm, hc.level_eq hg hsp hx hstep⟩
  obtain ⟨hcat, rfl, hlevel⟩ := hroot hspan hmem h
  obtain ⟨hcat', rfl, hlevel'⟩ := hroot hspan' hmem' h'
  exact hc.item_unique hspan hmem hmem' (hcat.trans hcat'.symm) (hlevel.trans hlevel'.symm)

end Saturated

end CoarseChart

end Categorial
