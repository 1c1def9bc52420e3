import Categorial.Chart.Coarse
import Categorial.Proofs.Except
set_option autoImplicit false

/-!
The budget of the coarse chart. Filled without one, the chart of a sentence has a certain number of items, and
only this number matters: a smaller budget abandons the sentence, and under any other the chart is the same, with
the same items and steps in the same order. A step to an item that is there costs nothing.
-/

namespace Categorial

namespace CoarseChart

def place (span : Span) (level : Level) (cell : Array CoarseItem) (step : CatId × CoarseStep) : Array CoarseItem :=
  match cell.findIdx? fun item => item.cat == step.1 && item.level == level with
  | some i => cell.modify i fun item => { item with steps := item.steps.push step.2 }
  | none => cell.push ⟨step.1, span, level, #[step.2]⟩

/-- All items of a cell, the first of which gets the id `first`. -/
def wholeCell (g : Grammar) (first : CoarseId) (span : Span) (steps : List (CatId × CoarseStep)) :
    Array CoarseItem :=
  let cell := steps.foldl (place span .base) #[]
  (unarySteps g first cell).foldl (place span .unary) cell

theorem size_le_place (span : Span) (level : Level) (cell : Array CoarseItem) (step : CatId × CoarseStep) :
    cell.size ≤ (place span level cell step).size := by
  unfold place
  split
  · exact Nat.le_of_eq Array.size_modify.symm
  · rw [Array.size_push]
    exact Nat.le_succ _

theorem addStep_eq {room : Nat} {cell : Array CoarseItem} (span : Span) (level : Level) (step : CatId × CoarseStep)
    (hroom : cell.size ≤ room) : addStep room span level cell step =
      if (place span level cell step).size ≤ room then .ok (place span level cell step)
      else .error .abandoned := by
  unfold addStep place
  cases cell.findIdx? fun item => item.cat == step.1 && item.level == level with
  | some i =>
    simp only [Array.size_modify]
    rw [if_pos hroom]
  | none =>
    simp only [Array.size_push]
    rfl

theorem foldlM_addStep_eq {room : Nat} {cell : Array CoarseItem} (span : Span) (level : Level)
    (steps : List (CatId × CoarseStep)) (hroom : cell.size ≤ room) :
    steps.foldlM (addStep room span level) cell =
      if (steps.foldl (place span level) cell).size ≤ room then .ok (steps.foldl (place span level) cell)
      else .error .abandoned :=
  foldlM_bounded (size_le_place span level) (fun _ step h => addStep_eq span level step h) hroom

theorem cellOf_eq_wholeCell (g : Grammar) (room : Nat) (first : CoarseId) (span : Span)
    (steps : List (CatId × CoarseStep)) : cellOf g room first span steps =
      if (wholeCell g first span steps).size ≤ room then .ok (wholeCell g first span steps)
      else .error .abandoned := by
  obtain ⟨lower, hlower⟩ : ∃ lower, lower = steps.foldl (place span .base) #[] := ⟨_, rfl⟩
  have hwhole : wholeCell g first span steps = (unarySteps g first lower).foldl (place span .unary) lower := by
    rw [hlower]
    rfl
  have hrun : steps.foldlM (addStep room span .base) #[] =
      if lower.size ≤ room then .ok lower else .error .abandoned := by
    rw [hlower]
    exact foldlM_addStep_eq span .base steps (Nat.zero_le room)
  rw [cellOf, hrun, hwhole]
  by_cases hroom : lower.size ≤ room
  · rw [if_pos hroom]
    exact foldlM_addStep_eq span .unary _ hroom
  · have hmore := size_le_foldl (size_le_place span .unary) (unarySteps g first lower) lower
    rw [if_neg hroom, if_neg fun hle => hroom (Nat.le_trans hmore hle)]
    rfl

theorem size_addCell {α : Type} (c : CoarseChart α) (span : Span) (cell : Array CoarseItem) :
    (c.addCell span cell).items.size = c.items.size + cell.size := by
  simp [addCell]

variable {α : Type} [Scalar α]

def extend (tags : Supertags α) (c : CoarseChart α) (span : Span) : CoarseChart α :=
  c.addCell span (wholeCell c.grammar c.items.size span (c.stepsOver tags span))

def unbounded (g : Grammar) (s : Sentence) (tags : Supertags α) (beta : α) : CoarseChart α :=
  (spansOf s.length).foldl (extend tags) (.empty g s beta)

theorem size_le_extend (tags : Supertags α) (c : CoarseChart α) (span : Span) :
    c.items.size ≤ (extend tags c span).items.size := by
  rw [extend, size_addCell]
  exact Nat.le_add_right _ _

theorem fill_eq_extend (tags : Supertags α) {maxItems : Nat} {c : CoarseChart α} (span : Span)
    (hroom : c.items.size ≤ maxItems) : fill tags maxItems c span =
      if (extend tags c span).items.size ≤ maxItems then .ok (extend tags c span) else .error .abandoned := by
  rw [fill, cellOf_eq_wholeCell, extend, size_addCell]
  by_cases hfits : (wholeCell c.grammar c.items.size span (c.stepsOver tags span)).size ≤ maxItems - c.items.size
  · rw [if_pos hfits, if_pos (by omega)]
    rfl
  · rw [if_neg hfits, if_neg (by omega)]
    rfl

theorem foldlM_fill (tags : Supertags α) {maxItems : Nat} {c : CoarseChart α} (spans : List Span)
    (hroom : c.items.size ≤ maxItems) : spans.foldlM (fill tags maxItems) c =
      if (spans.foldl (extend tags) c).items.size ≤ maxItems then .ok (spans.foldl (extend tags) c)
      else .error .abandoned :=
  foldlM_bounded (size_le_extend tags) (fun _ span h => fill_eq_extend tags span h) hroom

theorem filled_eq_unbounded (g : Grammar) (s : Sentence) (tags : Supertags α) (beta : α) (maxItems : Nat) :
    filled g s tags beta maxItems =
      if (unbounded g s tags beta).items.size ≤ maxItems then .ok (unbounded g s tags beta)
      else .error .abandoned :=
  foldlM_fill tags (spansOf s.length) (Nat.zero_le maxItems)

/-- What a run under a budget has at hand, from its beginning to the end of its last cell or to the step for which
there is no room: the chart with its finished cells, and the items so far of the cell that is being filled. -/
inductive Underway (g : Grammar) (s : Sentence) (tags : Supertags α) (beta : α) (maxItems : Nat) :
    CoarseChart α → Array CoarseItem → Prop where
  | between {spans : List Span} {c : CoarseChart α} (hspans : spans <+: spansOf s.length)
      (hrun : spans.foldlM (fill tags maxItems) (.empty g s beta) = .ok c) : Underway g s tags beta maxItems c #[]
  | lower {spans : List Span} {span : Span} {c : CoarseChart α} {steps : List (CatId × CoarseStep)}
      {cell : Array CoarseItem} (hspans : spans ++ [span] <+: spansOf s.length)
      (hrun : spans.foldlM (fill tags maxItems) (.empty g s beta) = .ok c) (hsteps : steps <+: c.stepsOver tags span)
      (hcell : steps.foldlM (addStep (maxItems - c.items.size) span .base) #[] = .ok cell) :
      Underway g s tags beta maxItems c cell
  | upper {spans : List Span} {span : Span} {c : CoarseChart α} {steps : List (CatId × CoarseStep)}
      {lower cell : Array CoarseItem} (hspans : spans ++ [span] <+: spansOf s.length)
      (hrun : spans.foldlM (fill tags maxItems) (.empty g s beta) = .ok c)
      (hlower : (c.stepsOver tags span).foldlM (addStep (maxItems - c.items.size) span .base) #[] = .ok lower)
      (hsteps : steps <+: unarySteps c.grammar c.items.size lower)
      (hcell : steps.foldlM (addStep (maxItems - c.items.size) span .unary) lower = .ok cell) :
      Underway g s tags beta maxItems c cell

theorem Underway.size_le {g : Grammar} {s : Sentence} {tags : Supertags α} {beta : α} {maxItems : Nat}
    {c : CoarseChart α} {cell : Array CoarseItem} (h : Underway g s tags beta maxItems c cell) :
    c.items.size + cell.size ≤ maxItems := by
  have hchart {spans : List Span} {c : CoarseChart α}
      (hrun : spans.foldlM (fill tags maxItems) (.empty g s beta) = .ok c) : c.items.size ≤ maxItems := by
    rw [foldlM_fill tags _ (Nat.zero_le maxItems)] at hrun
    split at hrun
    · cases hrun
      assumption
    · cases hrun
  have hroom {room : Nat} {span : Span} {level : Level} {steps : List (CatId × CoarseStep)}
      {before after : Array CoarseItem} (hbefore : before.size ≤ room)
      (hrun : steps.foldlM (addStep room span level) before = .ok after) : after.size ≤ room := by
    rw [foldlM_addStep_eq span level steps hbefore] at hrun
    split at hrun
    · cases hrun
      assumption
    · cases hrun
  cases h with
  | between _ hrun => exact hchart hrun
  | lower _ hrun _ hcell =>
    have hfits := hroom (Nat.zero_le _) hcell
    have hle := hchart hrun
    omega
  | upper _ hrun hlower _ hcell =>
    have hfits := hroom (hroom (Nat.zero_le _) hlower) hcell
    have hle := hchart hrun
    omega

/-- A sentence is abandoned exactly if its chart without a budget has more items than the budget allows. Under every
other budget the answer is the same, and that chart if there is one. At no moment a run has more items at hand than
it may have. -/
theorem build_budget (g : Grammar) (s : Sentence) (tags : Supertags α) (beta : α) (maxItems : Nat) :
    (build g s tags beta maxItems = .error .abandoned ↔ maxItems < (unbounded g s tags beta).items.size) ∧
      ((unbounded g s tags beta).items.size ≤ maxItems → build g s tags beta maxItems =
        if (unbounded g s tags beta).spans then .ok (unbounded g s tags beta) else .error .coarse) ∧
      ∀ c cell, Underway g s tags beta maxItems c cell → c.items.size + cell.size ≤ maxItems := by
  have hroom (h : (unbounded g s tags beta).items.size ≤ maxItems) : build g s tags beta maxItems =
      if (unbounded g s tags beta).spans then .ok (unbounded g s tags beta) else .error .coarse := by
    rw [build, filled_eq_unbounded, if_pos h]
    rfl
  refine ⟨⟨fun habandoned => ?_, fun hlt => ?_⟩, hroom, fun c cell h => h.size_le⟩
  · by_contra hle
    rw [hroom (Nat.le_of_not_lt hle)] at habandoned
    split at habandoned <;> cases habandoned
  · rw [build, filled_eq_unbounded, if_neg (Nat.not_le.mpr hlt)]
    rfl

end CoarseChart

end Categorial
