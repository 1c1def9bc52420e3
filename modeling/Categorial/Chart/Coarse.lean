import Categorial.Grammar.Basic
import Categorial.Supertags
set_option autoImplicit false

/-!
The coarse chart packs all analyses of a sentence by category: an item is a category over a span, with
every way to build it. Cells are filled from short spans to long ones. The items of a cell come from
words or from binary rules first; one round of unary rules on these makes the items of the upper level,
which no unary rule extends.
-/

namespace Categorial

inductive ParseFailure where
  /-- No start category spans the sentence. -/
  | coarse
  /-- The coarse chart spans the sentence but the model admits no root. -/
  | fine
  /-- The sentence is too long or its chart too large. -/
  | abandoned
  deriving DecidableEq, Repr

def ParseFailure.message : ParseFailure → String
  | coarse => "coarse parse failure"
  | fine => "fine parse failure"
  | abandoned => "abandoned"

abbrev CoarseId := Nat

inductive Level where
  | base
  | unary
  deriving DecidableEq, Repr

inductive CoarseStep where
  | lexical (rule : RuleId) (word : Nat)
  | unary (rule : RuleId) (child : CoarseId)
  | binary (rule : RuleId) (left right : CoarseId)
  deriving DecidableEq, Repr

structure CoarseItem where
  cat : CatId
  span : Span
  level : Level
  steps : Array CoarseStep
  deriving Repr

def spansOf (n : Nat) : List Span :=
  (List.range n).flatMap fun shorter =>
    (List.range (n - shorter)).map fun start => ⟨start, start + shorter + 1⟩

structure CoarseChart (α : Type) where
  grammar : Grammar
  sentence : Sentence
  beta : α
  items : Array CoarseItem
  /-- The items of each cell by the number of the cell. -/
  cells : Array (List CoarseId)

namespace CoarseChart

variable {α : Type}

/-- Cells are numbered row by row, with a row for each start and as many cells in it as the sentence has
words. A span that ends behind the sentence therefore stands for a cell of a row below. -/
def cellNumber (c : CoarseChart α) (span : Span) : Nat :=
  span.start * c.sentence.length + span.stop - 1

def cell (c : CoarseChart α) (span : Span) : List CoarseId :=
  (c.cells[c.cellNumber span]?).getD []

def item? (c : CoarseChart α) (id : CoarseId) : Option CoarseItem := c.items[id]?

def catOf? (c : CoarseChart α) (id : CoarseId) : Option CatId := (c.item? id).map CoarseItem.cat

def itemsOver (c : CoarseChart α) (span : Span) : List (CoarseId × CoarseItem) :=
  (c.cell span).filterMap fun id => (c.item? id).map fun item => (id, item)

def wholeSpan (c : CoarseChart α) : Span := ⟨0, c.sentence.length⟩

def spans (c : CoarseChart α) : Bool :=
  (c.itemsOver c.wholeSpan).any fun (_, item) => c.grammar.isStart item.cat

def categories (c : CoarseChart α) (span : Span) : List CatId :=
  (((c.itemsOver span).map fun (_, item) => item.cat).mergeSort (fun a b => a ≤ b)).eraseReps

def lexicalSteps [Scalar α] (c : CoarseChart α) (tags : Supertags α) (word : Nat) :
    List (CatId × CoarseStep) :=
  (tags.within word c.beta).filterMap fun tag =>
    (c.grammar.lexicalRule? tag.cat).map fun rule => (tag.cat, .lexical rule word)

def joinSteps (c : CoarseChart α) (left right : Span) : List (CatId × CoarseStep) :=
  (c.itemsOver left).flatMap fun (l, leftItem) =>
    (c.itemsOver right).flatMap fun (r, rightItem) =>
      (c.grammar.binaryRules leftItem.cat rightItem.cat).filterMap fun rule =>
        (c.grammar.combine? rule leftItem.cat rightItem.cat).map fun result =>
          (result, .binary rule l r)

def binarySteps (c : CoarseChart α) (span : Span) : List (CatId × CoarseStep) :=
  (List.range (span.length - 1)).flatMap fun i =>
    c.joinSteps ⟨span.start, span.start + 1 + i⟩ ⟨span.start + 1 + i, span.stop⟩

/-- What makes the items of the lower level over a span: a word, or the items of shorter spans. -/
def stepsOver [Scalar α] (c : CoarseChart α) (tags : Supertags α) (span : Span) :
    List (CatId × CoarseStep) :=
  if span.length = 1 then c.lexicalSteps tags span.start else c.binarySteps span

def unarySteps (g : Grammar) (first : CoarseId) (cell : Array CoarseItem) :
    List (CatId × CoarseStep) :=
  cell.toList.zipIdx.flatMap fun (item, i) =>
    if item.level = .base then
      (g.unaryRules item.cat).filterMap fun rule =>
        (g.combineUnary? rule item.cat).map fun result => (result, .unary rule (first + i))
    else []

/-- Adds a step to a cell. A category that the cell has at this level takes one more way to build it; a
new one needs room. -/
def addStep (room : Nat) (span : Span) (level : Level) (cell : Array CoarseItem)
    (step : CatId × CoarseStep) : Except ParseFailure (Array CoarseItem) :=
  match cell.findIdx? fun item => item.cat == step.1 && item.level == level with
  | some i => .ok (cell.modify i fun item => { item with steps := item.steps.push step.2 })
  | none =>
    if cell.size < room then .ok (cell.push ⟨step.1, span, level, #[step.2]⟩)
    else .error .abandoned

def cellOf (g : Grammar) (room : Nat) (first : CoarseId) (span : Span)
    (steps : List (CatId × CoarseStep)) : Except ParseFailure (Array CoarseItem) := do
  let cell ← steps.foldlM (addStep room span .base) #[]
  (unarySteps g first cell).foldlM (addStep room span .unary) cell

def addCell (c : CoarseChart α) (span : Span) (cell : Array CoarseItem) : CoarseChart α :=
  let number := c.cellNumber span
  let ids := List.range' c.items.size cell.size
  { c with items := c.items ++ cell, cells := c.cells.setIfInBounds number ids }

def empty (g : Grammar) (s : Sentence) (beta : α) : CoarseChart α :=
  ⟨g, s, beta, #[], Array.replicate (s.length * s.length) []⟩

variable [Scalar α]

def fill (tags : Supertags α) (maxItems : Nat) (c : CoarseChart α) (span : Span) :
    Except ParseFailure (CoarseChart α) := do
  let cell ← cellOf c.grammar (maxItems - c.items.size) c.items.size span (c.stepsOver tags span)
  pure (c.addCell span cell)

/-- The chart with all cells filled, whether or not a start category spans the sentence. It is abandoned
once it needs more than `maxItems` items. -/
def filled (g : Grammar) (s : Sentence) (tags : Supertags α) (beta : α) (maxItems : Nat) :
    Except ParseFailure (CoarseChart α) :=
  (spansOf s.length).foldlM (fill tags maxItems) (.empty g s beta)

/-- The chart of a sentence under a beam on its tags. It fails if no start category spans the sentence. -/
def build (g : Grammar) (s : Sentence) (tags : Supertags α) (beta : α) (maxItems : Nat) :
    Except ParseFailure (CoarseChart α) := do
  let c ← filled g s tags beta maxItems
  if c.spans then pure c else throw .coarse

end CoarseChart

end Categorial
