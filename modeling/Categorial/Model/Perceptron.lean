import Categorial.Feature.WeightFile
import Categorial.Model.Basic
set_option autoImplicit false

namespace Categorial

structure Perceptron (α : Type) where
  grammarId : Nat
  table : FeatureTable
  /-- Empty until the model has been trained or loaded with weights. -/
  weights : Array α

namespace Perceptron

def modelName : String := "perceptron"

variable {α : Type}

def untrained (g : Grammar) : Perceptron α := ⟨g.id, .empty, #[]⟩

def isTrained (m : Perceptron α) : Bool := !m.weights.isEmpty

/-- The numbers of a step's features, new ones being added. -/
def register (m : Perceptron α) (ctx : Context) (e : Expansion) :
    Except ScoreError (List Nat × Perceptron α) := do
  let rule ← ctx.lookupRule e.rule
  let (keys, symbols) := (e.features .grow ctx rule).run m.table.symbols
  let (indices, table) := { m.table with symbols }.registerAll keys
  pure (indices, { m with table })

/-- The numbers of those features of a step that the table has. -/
def lookup (m : Perceptron α) (ctx : Context) (rule : Rule) (e : Expansion) : List Nat :=
  ((e.features .known ctx rule).run m.table.symbols).1.filterMap m.table.get?

def features (m : Perceptron α) (ctx : Context) (e : Expansion) : Except ScoreError (List Nat) := do
  let rule ← ctx.lookupRule e.rule
  pure (m.lookup ctx rule e)

def refiner (m : Perceptron α) : Refiner where
  name := modelName
  grammarId := m.grammarId
  refineLexical _ _ word := ⟨some word, none⟩
  refineUnary _ _ child := child.refinement
  refineBinary := Context.childRefinement

def setWeights (m : Perceptron α) (weights : Array α) : Except Error (Perceptron α) :=
  if weights.size = m.table.size then .ok { m with weights }
  else .error (.invalidArgument (.weightCount weights.size m.table.size))

variable [Scalar α]

def weight (m : Perceptron α) (index : Nat) : α := m.weights[index]?.getD Scalar.zero

def total (m : Perceptron α) (ctx : Context) (rule : Rule) (e : Expansion) : α :=
  Scalar.sum ((m.lookup ctx rule e).map m.weight)

def toModel (m : Perceptron α) : Model α where
  toRefiner := m.refiner
  score ctx e := do
    let rule ← e.check ctx
    pure (m.total ctx rule e)
  merit _ _ := Scalar.zero

variable [Written α]

def save (m : Perceptron α) (g : Grammar) : Except Error String := do
  g.check m.grammarId
  WeightFile.write g m.table modelName (if m.isTrained then some m.weights else none)

/-- Reads weights for the features of the table; features that the file lists beyond it are appended.
What was appended before a fault stays. -/
def loadWeights (m : Perceptron α) (g : Grammar) (path : String) (lines : List Text.Line) :
    Perceptron α × Except Error Unit :=
  match g.check m.grammarId with
  | .error e => (m, .error e)
  | .ok () =>
    match WeightFile.read g path m.table lines with
    | (table, .error e) => ({ m with table }, .error e)
    | (table, .ok (name, weights)) =>
      if name = modelName then ({ m with table, weights := weights.getD #[] }, .ok ())
      else ({ m with table }, .error (.badContent path (.otherModel modelName name)))

def load (g : Grammar) (path : String) (lines : List Text.Line) : Except Error (Perceptron α) :=
  match (untrained g).loadWeights g path lines with
  | (_, .error e) => .error e
  | (m, .ok ()) => .ok m

end Perceptron

end Categorial
