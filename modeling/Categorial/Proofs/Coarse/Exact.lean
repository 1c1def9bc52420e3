import Categorial.Proofs.Coarse.Distinct
import Categorial.Proofs.ExactScalar
set_option autoImplicit false

/-!
The coarse chart, from its input to its answer: unless it is abandoned it has exactly what is derivable,
and it is an answer exactly if a start category is derivable over the whole sentence.
-/

namespace Categorial

namespace CoarseChart

variable {α : Type}

theorem spans_iff {c : CoarseChart α} :
    c.spans = true ↔ ∃ cat level, c.grammar.isStart cat = true ∧ c.Holds c.wholeSpan cat level := by
  simp only [spans, List.any_eq_true]
  constructor
  · rintro ⟨⟨id, item⟩, hmem, hstart⟩
    exact ⟨item.cat, item.level, hstart, id, item, hmem, rfl, rfl⟩
  · rintro ⟨_, _, hstart, id, item, hmem, rfl, rfl⟩
    exact ⟨(id, item), hmem, hstart⟩

variable [Scalar α]

variable {g : Grammar} {s : Sentence} {tags : Supertags α} {beta : α} {maxItems : Nat}

/-- A chart is filled if there is room for its items, and abandoned if not. -/
theorem exists_filled_if_room (g : Grammar) (s : Sentence) (tags : Supertags α) (beta : α) :
    ∃ c : CoarseChart α, ∀ maxItems, filled g s tags beta maxItems =
      if c.items.size ≤ maxItems then .ok c else .error .abandoned :=
  ⟨unbounded g s tags beta, filled_eq_unbounded g s tags beta⟩

theorem filled_error {e : ParseFailure} (h : filled g s tags beta maxItems = .error e) : e = .abandoned := by
  rw [filled_eq_unbounded] at h
  split at h
  · cases h
  · cases h
    rfl

theorem exists_filled (h : build g s tags beta maxItems ≠ .error .abandoned) :
    ∃ c, filled g s tags beta maxItems = .ok c := by
  cases hfilled : filled g s tags beta maxItems with
  | ok c => exact ⟨c, rfl⟩
  | error e =>
    refine absurd ?_ h
    rw [build, hfilled, filled_error hfilled]
    rfl

/-- The chart has exactly what is derivable, each item once and with exactly its last steps. -/
structure Exact (g : Grammar) (s : Sentence) (tags : Supertags α) (beta : α) (c : CoarseChart α) :
    Prop where
  holds_iff_derivable : ∀ span, span.Within s.length → ∀ cat level,
    c.Holds span cat level ↔ Derivable g tags beta span cat level
  holds_iff_step : ∀ span, span.Within s.length → ∀ cat level,
    c.Holds span cat level ↔ ∃ step, c.LastStep tags span cat level step
  once : ∀ span, span.Within s.length →
    ((c.itemsOver span).map fun entry => (entry.2.cat, entry.2.level)).Nodup
  steps_iff : ∀ span, span.Within s.length → ∀ id item, (id, item) ∈ c.itemsOver span →
    item.span = span ∧ ∀ step, step ∈ item.steps ↔ c.LastStep tags span item.cat item.level step
  steps_once : tags.Distinct → ∀ span, span.Within s.length → ∀ id item,
    (id, item) ∈ c.itemsOver span → item.steps.toList.Nodup

theorem exact_filled {c : CoarseChart α} (hg : g.Indexed) (hc : filled g s tags beta maxItems = .ok c) :
    Exact g s tags beta c := by
  have hsat := saturated_filled hc
  obtain ⟨⟨rfl, rfl, rfl, _⟩, _⟩ := itemsOver_filled hc
  exact {
    holds_iff_derivable := fun span hspan cat level => hsat.holds_iff_derivable hg hspan
    holds_iff_step := fun span hspan cat level => hsat.holds_iff hg hspan
    once := fun span hspan => hsat.keys_nodup hspan
    steps_iff := fun span hspan id item hmem =>
      ⟨hsat.span_eq hspan hmem, fun step => hsat.mem_steps hg hspan hmem⟩
    steps_once := fun htags span hspan id item hmem => hsat.nodup_steps hg htags hspan hmem }

/-- A start category is derivable over the whole sentence. -/
def Spannable (g : Grammar) (s : Sentence) (tags : Supertags α) (beta : α) : Prop :=
  ∃ cat level, g.isStart cat = true ∧ Derivable g tags beta ⟨0, s.length⟩ cat level

theorem spans_iff_spannable {c : CoarseChart α} (hg : g.Indexed) (hs : 0 < s.length)
    (hc : filled g s tags beta maxItems = .ok c) : c.spans = true ↔ Spannable g s tags beta := by
  have hsat := saturated_filled hc
  obtain ⟨⟨rfl, rfl, rfl, _⟩, _⟩ := itemsOver_filled hc
  have hwhole : c.wholeSpan.Within c.sentence.length := ⟨hs, Nat.le_refl _⟩
  simp only [spans_iff, hsat.holds_iff_derivable hg hwhole]
  exact Iff.rfl

theorem build_ok {c : CoarseChart α} (h : build g s tags beta maxItems = .ok c) :
    c.grammar = g ∧ c.sentence = s ∧ c.Saturated tags ∧ c.wholeSpan.Within c.sentence.length := by
  unfold build at h
  obtain ⟨c', hfilled, h⟩ := except_bind_eq_ok.mp h
  cases hspans : c'.spans with
  | false => simp [hspans] at h
  | true =>
    simp only [hspans, if_true] at h
    cases h
    have hsat := saturated_filled hfilled
    obtain ⟨⟨rfl, rfl, _, hsized⟩, _⟩ := itemsOver_filled hfilled
    refine ⟨rfl, rfl, hsat, ?_, Nat.le_refl _⟩
    obtain ⟨_, _, _, id, item, hmem, _⟩ := spans_iff.mp hspans
    obtain ⟨_, hcell, _⟩ := List.mem_filterMap.mp hmem
    refine Nat.pos_of_ne_zero fun hzero => ?_
    have hzero : c.sentence.length = 0 := hzero
    have hempty : c.cells.size ≤ c.cellNumber c.wholeSpan := by
      rw [hsized.cells_size, hzero]
      exact Nat.zero_le _
    simp [cell, Array.getElem?_eq_none hempty] at hcell

/-- A chart that is an answer has an item with a start category over the whole sentence. -/
theorem exists_start {c : CoarseChart α} (h : build g s tags beta maxItems = .ok c) :
    ∃ id item, (id, item) ∈ c.itemsOver c.wholeSpan ∧ c.grammar.isStart item.cat = true := by
  obtain ⟨c', _, h⟩ := except_bind_eq_ok.mp h
  split at h
  · rename_i hspans
    cases h
    obtain ⟨_, _, hstart, id, item, hmem, rfl, rfl⟩ := spans_iff.mp hspans
    exact ⟨id, item, hmem, hstart⟩
  · cases h

theorem beta_eq_of_build {c : CoarseChart α} (h : build g s tags beta maxItems = .ok c) : c.beta = beta := by
  obtain ⟨c', hfilled, h⟩ := except_bind_eq_ok.mp h
  split at h
  · cases h
    exact (itemsOver_filled hfilled).1.beta_eq
  · cases h

/-- Unless it is abandoned, the coarse chart is exact, and it is the answer exactly if a start category is
derivable over the whole sentence. -/
theorem build_exact {gid : Nat} {categories : Array Category} {rules : List Rule}
    {markups : List (CatId × Markup)} (hg : Grammar.ofRules gid categories rules markups = .ok g)
    (hs : 0 < s.length) (hroom : build g s tags beta maxItems ≠ .error .abandoned) :
    ∃ c, filled g s tags beta maxItems = .ok c ∧ Exact g s tags beta c ∧
      (Spannable g s tags beta → build g s tags beta maxItems = .ok c) ∧
      (¬ Spannable g s tags beta → build g s tags beta maxItems = .error .coarse) := by
  obtain ⟨c, hc⟩ := exists_filled hroom
  have hindexed := Grammar.indexed_ofRules hg
  have hspans := spans_iff_spannable hindexed hs hc
  have hbuild : build g s tags beta maxItems = if c.spans then .ok c else .error .coarse := by
    rw [build, hc]
    rfl
  refine ⟨c, hc, exact_filled hindexed hc, fun hstart => ?_, fun hnone => ?_⟩
  · rw [hbuild, if_pos (hspans.mpr hstart)]
  · rw [hbuild, if_neg fun hspan => hnone (hspans.mp hspan)]

end CoarseChart

namespace Sample

/-! Two words with one category each, which make a sentence. -/

def np : Category := .atom "NP" none

def clause : Category := .atom "S" none

def verb : Category := .functor clause .backward np

def categories : Array Category := #[np, verb, clause]

def rules : List Rule :=
  [⟨0, .lexical, .lexical, 0, .terminal, 1⟩, ⟨1, .lexical, .lexical, 1, .terminal, 1⟩,
    ⟨2, .rightBinary, .bwdApp, 2, .binary 0 1, 1⟩, ⟨3, .top, .top, 2, .unary 2, 1⟩]

def dogsRun : Sentence := ⟨#[⟨"dogs", "NNS", none⟩, ⟨"run", "VBP", none⟩]⟩

noncomputable def tags : Supertags EReal := ⟨[[⟨0, 1⟩], [⟨1, 1⟩]]⟩

theorem exists_grammar :
    ∃ g, Grammar.ofRules 7 categories rules [] = .ok g ∧ g.id = 7 ∧ g.rules = rules.toArray := by
  have htexts : (categories.toList.map Category.text).Nodup := by decide
  have hindex : ∃ catIds, Grammar.indexCategories 0 ∅ categories.toList = .ok catIds :=
    Grammar.indexCategories_ok (by simp) htexts
  obtain ⟨catIds, hids⟩ := hindex
  unfold Grammar.ofRules
  rw [hids]
  exact ⟨_, rfl, rfl, rfl⟩

open CoarseChart

noncomputable def chart0 (g : Grammar) : CoarseChart EReal :=
  (empty g dogsRun 1).addCell ⟨0, 1⟩ #[⟨0, ⟨0, 1⟩, .base, #[.lexical 0 0]⟩]

noncomputable def chart1 (g : Grammar) : CoarseChart EReal :=
  (chart0 g).addCell ⟨1, 2⟩ #[⟨1, ⟨1, 2⟩, .base, #[.lexical 1 1]⟩]

noncomputable def chart (g : Grammar) : CoarseChart EReal :=
  (chart1 g).addCell ⟨0, 2⟩ #[⟨2, ⟨0, 2⟩, .base, #[.binary 2 0 1]⟩]

section

variable {g : Grammar} (hg : g.Indexed) (hrules : g.rules = rules.toArray)

include hg hrules

theorem fill_ok_of {c : CoarseChart EReal} (hc : c.grammar = g) {span : Span}
    {steps : List (CatId × CoarseStep)} (hsteps : c.stepsOver tags span = steps)
    (hroom : Nat.ble (grouped span .base steps).length (10 - c.items.size) = true) :
    fill tags 10 c span = .ok (c.addCell span (grouped span .base steps).toArray) := by
  have hcell : cellItems c.grammar c.items.size span (c.stepsOver tags span) =
      grouped span .base steps := by
    have hunary (cat : CatId) : g.unaryRules cat = [] := by
      rw [hg.unaryRules, Grammar.idsWhere, hrules]
      rfl
    rw [cellItems, hc, unarySteps_eq_nil hunary, hsteps]
    exact List.append_nil _
  rw [fill_eq, hcell, if_pos (Nat.le_of_ble_eq_true hroom)]

theorem stepsOver_word {c : CoarseChart EReal} (hc : c.grammar = g) (hb : c.beta = 1) {i : Nat}
    (hi : i < 2) : c.stepsOver tags ⟨i, i + 1⟩ = [(i, .lexical i i)] := by
  have hlex : g.lexicalRule? i = some i := by
    rw [hg.lexicalRule?, Grammar.idsWhere, hrules]
    obtain rfl | rfl : i = 0 ∨ i = 1 := by omega
    · rfl
    · rfl
  have hcat : tags.within i 1 = [⟨i, 1⟩] := by
    obtain rfl | rfl : i = 0 ∨ i = 1 := by omega
    · simp [Supertags.within, Supertags.best?, Supertags.all, tags]
    · simp [Supertags.within, Supertags.best?, Supertags.all, tags]
  simp [stepsOver, Span.length, lexicalSteps, hb, hc, hcat, hlex]

theorem filled_eq : filled g dogsRun tags 1 10 = .ok (chart g) := by
  have h0 : fill tags 10 (empty g dogsRun 1) ⟨0, 1⟩ = .ok (chart0 g) :=
    fill_ok_of hg hrules rfl (stepsOver_word hg hrules rfl rfl (by decide)) rfl
  have h1 : fill tags 10 (chart0 g) ⟨1, 2⟩ = .ok (chart1 g) :=
    fill_ok_of hg hrules rfl (stepsOver_word hg hrules rfl rfl (by decide)) rfl
  have hsteps : (chart1 g).stepsOver tags ⟨0, 2⟩ = [(2, .binary 2 0 1)] := by
    have hbinary : g.binaryRules 0 1 = [2] := by
      rw [hg.binaryRules, Grammar.idsWhere, hrules]
      rfl
    have hcombine : g.combine? 2 0 1 = some 2 := by
      rw [Grammar.combine?, Grammar.rule?, hrules]
      rfl
    have hl : (chart1 g).itemsOver ⟨0, 1⟩ = [(0, ⟨0, ⟨0, 1⟩, .base, #[.lexical 0 0]⟩)] := rfl
    have hr : (chart1 g).itemsOver ⟨1, 2⟩ = [(1, ⟨1, ⟨1, 2⟩, .base, #[.lexical 1 1]⟩)] := rfl
    have hgrammar : (chart1 g).grammar = g := rfl
    simp [stepsOver, binarySteps, Span.length, joinSteps, hl, hr, hgrammar, hbinary, hcombine]
  have h2 : fill tags 10 (chart1 g) ⟨0, 2⟩ = .ok (chart g) := fill_ok_of hg hrules rfl hsteps rfl
  have hspans : spansOf dogsRun.length = [⟨0, 1⟩, ⟨1, 2⟩, ⟨0, 2⟩] := rfl
  rw [filled, hspans, List.foldlM_cons, h0]
  simp only [bind, Except.bind, List.foldlM_cons, h1, h2]
  rfl

theorem build_eq : build g dogsRun tags 1 10 = .ok (chart g) := by
  have htop : g.topRule? 2 = some 3 := by
    rw [hg.topRule?, Grammar.idsWhere, hrules]
    rfl
  have hwhole : (chart g).itemsOver (chart g).wholeSpan =
      [(2, ⟨2, ⟨0, 2⟩, .base, #[.binary 2 0 1]⟩)] := rfl
  have hgrammar : (chart g).grammar = g := rfl
  have hspans : (chart g).spans = true := by
    simp [spans, hwhole, Grammar.isStart, hgrammar, htop]
  rw [build, filled_eq hg hrules]
  simp [bind, Except.bind, hspans]

end

theorem build_exact_dogs_run : ∃ g, Grammar.ofRules 7 categories rules [] = .ok g ∧
    0 < dogsRun.length ∧ build g dogsRun tags 1 10 ≠ .error .abandoned ∧
    ∃ c, filled g dogsRun tags 1 10 = .ok c ∧ Exact g dogsRun tags 1 c ∧
      (Spannable g dogsRun tags 1 → build g dogsRun tags 1 10 = .ok c) ∧
      (¬ Spannable g dogsRun tags 1 → build g dogsRun tags 1 10 = .error .coarse) := by
  obtain ⟨g, hg, _, hrules⟩ := exists_grammar
  have hroom : build g dogsRun tags 1 10 ≠ .error .abandoned := by
    rw [build_eq (Grammar.indexed_ofRules hg) hrules]
    exact fun h => by cases h
  exact ⟨g, hg, by decide, hroom, build_exact hg (by decide) hroom⟩

end Sample

end Categorial
