set_option autoImplicit false

namespace Categorial

class Scalar (α : Type) extends Add α, Sub α, Mul α, Div α where
  ofNat : Nat → α
  /-- The sum of no terms. In doubles this is the negative zero, which adds nothing to any number. -/
  emptySum : α
  /-- Lies below every number: the logarithm of zero. -/
  bottom : α
  /-- Lies above every number. -/
  top : α
  lt : α → α → Bool
  le : α → α → Bool
  /-- A total order that refines `lt`. -/
  compare : α → α → Ordering
  log : α → α

namespace Scalar

variable {α : Type} [Scalar α]

def zero : α := ofNat 0

def one : α := ofNat 1

def neg (x : α) : α := (emptySum : α) - x

def sum (xs : List α) : α := xs.foldl (· + ·) emptySum

/-- The second argument wins unless it is smaller or no number; what is no number never wins over one. -/
def max (x y : α) : α := if le x y || !le x x then y else x

def isBottom (x : α) : Bool := le x bottom

def ofProbability (p : α) : α := if le p zero then bottom else log p

/-- Score of two independent events together: `bottom` absorbs everything. -/
def both (x y : α) : α := if isBottom x || isBottom y then bottom else x + y

end Scalar

end Categorial
