import Categorial.Scalar
set_option autoImplicit false

/-!
Weights that are learned from mistakes, and their average over all steps so far. Each update is also
added up with the number of the step it was made in: what a weight lost to the steps before its updates
is that total divided by the number of steps.
-/

namespace Categorial

/-- The weights with what their average needs. There is a total for each weight, so that no update of a weight misses
its total. -/
structure Learner (α : Type) where
  weights : Array α
  /-- The updates of each weight, each times the step in which it was made. -/
  totals : Array α
  /-- The number of the step, from 1 on. -/
  step : α
  size_totals : totals.size = weights.size
  deriving Repr

namespace Learner

variable {α : Type} [Scalar α]

def start (weights : Array α) : Learner α where
  weights := weights
  totals := Array.replicate weights.size Scalar.zero
  step := Scalar.one
  size_totals := Array.size_replicate

def tick (l : Learner α) : Learner α := { l with step := l.step + Scalar.one }

def change (l : Learner α) (feature : Nat) (delta : α) : Learner α where
  weights := l.weights.modify feature (· + delta)
  totals := l.totals.modify feature (· + l.step * delta)
  step := l.step
  size_totals := by rw [Array.size_modify, Array.size_modify, l.size_totals]

/-- Adds `rate` for each occurrence of a feature in the gold derivation and subtracts it for each in the
predicted one. -/
def update (l : Learner α) (gold predicted : List (Nat × Nat)) (rate : α) : Learner α :=
  let l := gold.foldl (fun l (f, n) => l.change f (rate * Scalar.ofNat n)) l
  predicted.foldl (fun l (f, n) => l.change f (Scalar.neg rate * Scalar.ofNat n)) l

def averaged (l : Learner α) : Array α :=
  Array.zipWith (fun w total => w - total / l.step) l.weights l.totals

end Learner

end Categorial
