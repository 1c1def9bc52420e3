import Categorial.Proofs.Codebook
import Categorial.Proofs.Coarse.Filled
set_option autoImplicit false

namespace Categorial

/-- What a grammar derives over the spans of a sentence whose words carry the tags within a beam. One
unary step may follow a word or a binary step. -/
inductive Derivable {α : Type} [Scalar α] (g : Grammar) (tags : Supertags α) (beta : α) :
    Span → CatId → Level → Prop where
  | word {i : Nat} {tag : Tag α} {rule : RuleId} : tag ∈ tags.within i beta →
      g.lexicalRule? tag.cat = some rule → Derivable g tags beta (Span.word i) tag.cat .base
  | join {rule : RuleId} {start mid stop : Nat} {left right result : CatId} {l r : Level} :
      Derivable g tags beta ⟨start, mid⟩ left l → Derivable g tags beta ⟨mid, stop⟩ right r →
      g.BinaryRule rule left right result → Derivable g tags beta ⟨start, stop⟩ result .base
  | change {rule : RuleId} {span : Span} {child result : CatId} :
      Derivable g tags beta span child .base → g.UnaryRule rule child result →
      Derivable g tags beta span result .unary

namespace CoarseChart

variable {α : Type} {c : CoarseChart α}

theorem item_eq_of_mem {a b : Span} {id : CoarseId} {item item' : CoarseItem}
    (h : (id, item) ∈ c.itemsOver a) (h' : (id, item') ∈ c.itemsOver b) : item = item' := by
  simp only [itemsOver, List.mem_filterMap, Option.map_eq_some_iff, Prod.mk.injEq] at h h'
  obtain ⟨_, _, x, hx, rfl, rfl⟩ := h
  obtain ⟨_, _, y, hy, rfl, rfl⟩ := h'
  exact Option.some.inj (hx.symm.trans hy)

theorem mem_joinSteps (hg : c.grammar.Indexed) {left right : Span} {cat : CatId} {step : CoarseStep} :
    (cat, step) ∈ c.joinSteps left right ↔ ∃ l leftItem r rightItem rule,
      (l, leftItem) ∈ c.itemsOver left ∧ (r, rightItem) ∈ c.itemsOver right ∧
      c.grammar.BinaryRule rule leftItem.cat rightItem.cat cat ∧ step = .binary rule l r := by
  simp only [joinSteps, List.mem_flatMap, List.mem_filterMap, Option.map_eq_some_iff, Prod.mk.injEq]
  constructor
  · rintro ⟨⟨l, leftItem⟩, hl, ⟨r, rightItem⟩, hr, rule, hrule, result, hresult, rfl, rfl⟩
    exact ⟨l, leftItem, r, rightItem, rule, hl, hr, hg.binaryRules_combine?.mp ⟨hrule, hresult⟩, rfl⟩
  · rintro ⟨l, leftItem, r, rightItem, rule, hl, hr, hrule, rfl⟩
    obtain ⟨hmem, hcombine⟩ := hg.binaryRules_combine?.mpr hrule
    exact ⟨(l, leftItem), hl, (r, rightItem), hr, rule, hmem, cat, hcombine, rfl, rfl⟩

theorem mem_unaryStepsOver (hg : c.grammar.Indexed) {span : Span} {cat : CatId} {step : CoarseStep} :
    (cat, step) ∈ c.unaryStepsOver span ↔ ∃ id child rule, (id, child) ∈ c.itemsOver span ∧
      child.level = .base ∧ c.grammar.UnaryRule rule child.cat cat ∧ step = .unary rule id := by
  simp only [unaryStepsOver, List.mem_flatMap]
  constructor
  · rintro ⟨⟨id, child⟩, hid, hmem⟩
    by_cases hbase : child.level = .base
    · simp only [hbase, if_true, List.mem_filterMap, Option.map_eq_some_iff, Prod.mk.injEq] at hmem
      obtain ⟨rule, hrule, result, hresult, rfl, rfl⟩ := hmem
      exact ⟨id, child, rule, hid, hbase, hg.unaryRules_combineUnary?.mp ⟨hrule, hresult⟩, rfl⟩
    · simp [hbase] at hmem
  · rintro ⟨id, child, rule, hid, hbase, hrule, rfl⟩
    obtain ⟨hmem, hcombine⟩ := hg.unaryRules_combineUnary?.mpr hrule
    refine ⟨(id, child), hid, ?_⟩
    simp only [hbase, if_true, List.mem_filterMap, Option.map_eq_some_iff, Prod.mk.injEq]
    exact ⟨rule, hmem, cat, hcombine, rfl, rfl⟩

variable [Scalar α]

/-- The ways in which a category can be built last over a span, from the items of a chart. -/
inductive LastStep (c : CoarseChart α) (tags : Supertags α) :
    Span → CatId → Level → CoarseStep → Prop where
  | lexical {i : Nat} {tag : Tag α} {rule : RuleId} : tag ∈ tags.within i c.beta →
      c.grammar.lexicalRule? tag.cat = some rule →
      LastStep c tags (Span.word i) tag.cat .base (.lexical rule i)
  | binary {rule : RuleId} {start mid stop : Nat} {l r : CoarseId} {left right : CoarseItem}
      {result : CatId} : start < mid → mid < stop → (l, left) ∈ c.itemsOver ⟨start, mid⟩ →
      (r, right) ∈ c.itemsOver ⟨mid, stop⟩ → c.grammar.BinaryRule rule left.cat right.cat result →
      LastStep c tags ⟨start, stop⟩ result .base (.binary rule l r)
  | unary {rule : RuleId} {span : Span} {id : CoarseId} {child : CoarseItem} {result : CatId} :
      (id, child) ∈ c.itemsOver span → child.level = .base →
      c.grammar.UnaryRule rule child.cat result →
      LastStep c tags span result .unary (.unary rule id)

variable {tags : Supertags α}

theorem mem_lexicalSteps {i : Nat} {cat : CatId} {step : CoarseStep} :
    (cat, step) ∈ c.lexicalSteps tags i ↔ ∃ tag ∈ tags.within i c.beta,
      ∃ rule, c.grammar.lexicalRule? tag.cat = some rule ∧ cat = tag.cat ∧ step = .lexical rule i := by
  simp only [lexicalSteps, List.mem_filterMap, Option.map_eq_some_iff, Prod.mk.injEq]
  constructor
  · rintro ⟨tag, htag, rule, hrule, rfl, rfl⟩
    exact ⟨tag, htag, rule, hrule, rfl, rfl⟩
  · rintro ⟨tag, htag, rule, hrule, rfl, rfl⟩
    exact ⟨tag, htag, rule, hrule, rfl, rfl⟩

theorem mem_stepsAt (hg : c.grammar.Indexed) {span : Span} (hspan : span.start < span.stop)
    {cat : CatId} {level : Level} {step : CoarseStep} :
    (cat, step) ∈ c.stepsAt tags span level ↔ c.LastStep tags span cat level step := by
  cases level with
  | unary =>
    rw [stepsAt, mem_unaryStepsOver hg]
    constructor
    · rintro ⟨id, child, rule, hid, hbase, hrule, rfl⟩
      exact .unary hid hbase hrule
    · rintro (_ | _ | ⟨hid, hbase, hrule⟩)
      exact ⟨_, _, _, hid, hbase, hrule, rfl⟩
  | base =>
    obtain ⟨start, stop⟩ := span
    simp only [stepsAt, stepsOver]
    by_cases hone : Span.length ⟨start, stop⟩ = 1
    · rw [if_pos hone, mem_lexicalSteps]
      obtain rfl : stop = start + 1 := by
        simp only [Span.length] at hspan hone
        omega
      constructor
      · rintro ⟨tag, htag, rule, hrule, rfl, rfl⟩
        exact .lexical htag hrule
      · rintro (⟨htag, hrule⟩ | ⟨hlt, hlt'⟩)
        · exact ⟨_, htag, _, hrule, rfl, rfl⟩
        · omega
    · rw [if_neg hone, binarySteps, List.mem_flatMap]
      constructor
      · rintro ⟨i, hi, hmem⟩
        obtain ⟨l, leftItem, r, rightItem, rule, hl, hr, hrule, rfl⟩ := (mem_joinSteps hg).mp hmem
        simp only [List.mem_range, Span.length] at hi hl hr
        exact .binary (by omega) (by omega) hl hr hrule
      · intro h
        cases h with
        | lexical => simp [Span.length] at hone
        | @binary rule _ mid _ l r left right _ hlt hlt' hl hr hrule =>
          refine ⟨mid - start - 1, List.mem_range.mpr (by simp only [Span.length]; omega), ?_⟩
          have hmid : start + 1 + (mid - start - 1) = mid := by omega
          rw [mem_joinSteps hg, hmid]
          exact ⟨l, left, r, right, rule, hl, hr, hrule, rfl⟩

def Holds (c : CoarseChart α) (span : Span) (cat : CatId) (level : Level) : Prop :=
  ∃ id item, (id, item) ∈ c.itemsOver span ∧ item.cat = cat ∧ item.level = level

namespace Saturated

variable {span : Span} {cat : CatId} {level : Level}

theorem holds_iff (hc : c.Saturated tags) (hg : c.grammar.Indexed)
    (hspan : span.Within c.sentence.length) :
    c.Holds span cat level ↔ ∃ step, c.LastStep tags span cat level step := by
  constructor
  · rintro ⟨id, item, hmem, rfl, rfl⟩
    obtain ⟨step, hstep⟩ := mem_catsOf.mp (hc.mem_itemsOver hspan hmem).1
    exact ⟨step, (mem_stepsAt hg hspan.1).mp hstep⟩
  · rintro ⟨step, hstep⟩
    obtain ⟨id, hid⟩ := hc.exists_item hspan
      (mem_catsOf.mpr ⟨step, (mem_stepsAt hg hspan.1).mpr hstep⟩)
    exact ⟨id, _, hid, rfl, rfl⟩

theorem mem_steps (hc : c.Saturated tags) (hg : c.grammar.Indexed)
    (hspan : span.Within c.sentence.length) {id : CoarseId} {item : CoarseItem}
    (hmem : (id, item) ∈ c.itemsOver span) {step : CoarseStep} :
    step ∈ item.steps ↔ c.LastStep tags span item.cat item.level step := by
  rw [← mem_stepsAt hg hspan.1, ← mem_stepsTo]
  conv => lhs; rw [(hc.mem_itemsOver hspan hmem).2]
  simp [itemFor]

theorem span_eq (hc : c.Saturated tags) (hspan : span.Within c.sentence.length) {id : CoarseId}
    {item : CoarseItem} (hmem : (id, item) ∈ c.itemsOver span) : item.span = span := by
  rw [(hc.mem_itemsOver hspan hmem).2]
  rfl

end Saturated

end CoarseChart

theorem Derivable.lt {α : Type} [Scalar α] {g : Grammar} {tags : Supertags α} {beta : α} {span : Span}
    {cat : CatId} {level : Level} (h : Derivable g tags beta span cat level) :
    span.start < span.stop := by
  induction h with
  | word => exact Nat.lt_succ_self _
  | join _ _ _ hl hr => exact Nat.lt_trans hl hr
  | change _ _ ih => exact ih

namespace CoarseChart

variable {α : Type} [Scalar α] {c : CoarseChart α} {tags : Supertags α}

namespace Saturated

theorem holds_of_derivable (hc : c.Saturated tags) (hg : c.grammar.Indexed) {span : Span}
    {cat : CatId} {level : Level} (h : Derivable c.grammar tags c.beta span cat level)
    (hspan : span.Within c.sentence.length) : c.Holds span cat level := by
  induction h with
  | word htag hrule => exact (hc.holds_iff hg hspan).mpr ⟨_, .lexical htag hrule⟩
  | join hl hr hrule ihl ihr =>
    have hlt := hl.lt
    have hlt' := hr.lt
    obtain ⟨hstart, hstop⟩ := hspan
    simp only at hlt hlt' hstart hstop
    obtain ⟨l, left, hleft, rfl, _⟩ := ihl ⟨hlt, by simp only; omega⟩
    obtain ⟨r, right, hright, rfl, _⟩ := ihr ⟨hlt', hstop⟩
    exact (hc.holds_iff hg ⟨hstart, hstop⟩).mpr ⟨_, .binary hlt hlt' hleft hright hrule⟩
  | change _ hrule ih =>
    obtain ⟨id, child, hid, rfl, hbase⟩ := ih hspan
    exact (hc.holds_iff hg hspan).mpr ⟨_, .unary hid hbase hrule⟩

/-- Every item is derivable. The induction is on the length of the span; over one span the items of the
lower level come first. -/
theorem derivable_of_holds (hc : c.Saturated tags) (hg : c.grammar.Indexed) (n : Nat) :
    ∀ {span : Span} {cat : CatId} {level : Level}, span.Within c.sentence.length → span.length = n →
      c.Holds span cat level → Derivable c.grammar tags c.beta span cat level := by
  induction n using Nat.strong_induction_on with
  | _ n ih =>
    have lower : ∀ {span : Span} {cat : CatId}, span.Within c.sentence.length → span.length = n →
        c.Holds span cat .base → Derivable c.grammar tags c.beta span cat .base := by
      intro span cat hspan hn h
      obtain ⟨step, hstep⟩ := (hc.holds_iff hg hspan).mp h
      cases hstep with
      | lexical htag hrule => exact .word htag hrule
      | @binary rule start mid stop l r left right _ hlt hlt' hleft hright hrule =>
        obtain ⟨_, hstop⟩ := hspan
        simp only [Span.length] at hn hstop
        have hl := ih (mid - start) (by omega) ⟨hlt, by simp only; omega⟩ rfl
          ⟨l, left, hleft, rfl, rfl⟩
        have hr := ih (stop - mid) (by omega) ⟨hlt', hstop⟩ rfl ⟨r, right, hright, rfl, rfl⟩
        exact .join hl hr hrule
    intro span cat level hspan hn h
    cases level with
    | base => exact lower hspan hn h
    | unary =>
      obtain ⟨step, hstep⟩ := (hc.holds_iff hg hspan).mp h
      cases hstep with
      | unary hid hbase hrule => exact .change (lower hspan hn ⟨_, _, hid, rfl, hbase⟩) hrule

theorem holds_iff_derivable (hc : c.Saturated tags) (hg : c.grammar.Indexed) {span : Span}
    (hspan : span.Within c.sentence.length) {cat : CatId} {level : Level} :
    c.Holds span cat level ↔ Derivable c.grammar tags c.beta span cat level :=
  ⟨hc.derivable_of_holds hg _ hspan rfl, fun h => hc.holds_of_derivable hg h hspan⟩

end Saturated

end CoarseChart

end Categorial
