import Categorial.Scalar
import Categorial.Tally
set_option autoImplicit false

/-!
Packed forests: all derivations of a sentence with the features of their steps. A forest knows neither
the sentence nor the model, so it can be kept and scored again under other weights. Nodes come after
the nodes they are built from, and one pass over them finds the best derivation.
-/

namespace Categorial

/-- One way to build a node. -/
structure ForestEdge where
  children : List Nat
  features : List Nat
  /-- A step of the gold derivation over nodes of the gold derivation. -/
  gold : Bool
  deriving DecidableEq, Repr

abbrev ForestNode := List ForestEdge

structure ForestRoot where
  node : Nat
  features : List Nat
  gold : Bool
  deriving DecidableEq, Repr

structure Forest where
  /-- The place of the sentence in its corpus. -/
  sentence : Nat
  nodes : List ForestNode
  roots : List ForestRoot
  /-- How often the gold derivation has each of its features. -/
  gold : List (Nat × Nat)
  deriving DecidableEq, Repr

structure Pick (α : Type) where
  score : α
  /-- The features of all its edges, where an edge occurs as often as the derivation has it. They are
  collected if the derivation is part of the best one. -/
  features : Thunk (List Nat)
  /-- All its edges are gold. -/
  correct : Bool

structure Prediction (α : Type) where
  score : α
  counts : List (Nat × Nat)
  correct : Bool
  deriving Repr

section Scores

variable {α : Type} [Scalar α]

def weightOf (weights : Array α) (feature : Nat) : α := weights[feature]?.getD Scalar.zero

def weigh (weights : Array α) (features : List Nat) : α :=
  Scalar.sum (features.map (weightOf weights))

def firstBest? {β : Type} (score : β → α) (xs : List β) : Option (β × α) :=
  xs.foldl (fun best x =>
    let s := score x
    match best with
    | none => some (x, s)
    | some (_, top) => if Scalar.lt top s then some (x, s) else best) none

abbrev Picks (α : Type) := Array (Option (Pick α))

namespace Picks

def pick? (picks : Picks α) (node : Nat) : Option (Pick α) := picks[node]?.join

def score (picks : Picks α) (node : Nat) : α := (picks.pick? node).elim Scalar.bottom Pick.score

end Picks

namespace ForestEdge

def score (weights : Array α) (picks : Picks α) (e : ForestEdge) : α :=
  e.children.foldl (fun x c => Scalar.both x (picks.score c)) (weigh weights e.features)

/-- The best derivation that goes through an edge. It is walked from the last child to the first. -/
def pick (picks : Picks α) (e : ForestEdge) (score : α) : Pick α :=
  let below := e.children.filterMap picks.pick?
  ⟨score, Thunk.mk fun _ => e.features ++ below.reverse.flatMap fun p => p.features.get,
    e.gold && below.all Pick.correct⟩

end ForestEdge

/-- The best derivation of a node, given those of the nodes before it. Of equal edges the first wins. -/
def ForestNode.pick? (weights : Array α) (picks : Picks α) (node : ForestNode) :
    Option (Pick α) :=
  (firstBest? (ForestEdge.score weights picks) node).map fun (e, score) => e.pick picks score

namespace Forest

def picks (f : Forest) (weights : Array α) : Picks α :=
  f.nodes.foldl (fun picks node => picks.push (ForestNode.pick? weights picks node)) #[]

def candidates (f : Forest) (picks : Picks α) : List (ForestRoot × Pick α) :=
  f.roots.filterMap fun r => (picks.pick? r.node).map fun p => (r, p)

def rootScore (weights : Array α) (candidate : ForestRoot × Pick α) : α :=
  Scalar.both (weigh weights candidate.1.features) candidate.2.score

def best? (f : Forest) (weights : Array α) : Option (Prediction α) :=
  (firstBest? (rootScore weights) (f.candidates (f.picks weights))).map fun ((r, p), score) =>
    ⟨score, (Tally.ofList (r.features ++ p.features.get)).toList, r.gold && p.correct⟩

def goldScore (f : Forest) (weights : Array α) : α :=
  Scalar.sum (f.gold.map fun (feature, n) => Scalar.ofNat n * weightOf weights feature)

end Forest

end Scores

namespace Forest

def edgeCount (f : Forest) : Nat := (f.nodes.map List.length).foldl (· + ·) 0

/-- Where features go when a table is pruned, by their old numbers; a feature without a new one is
gone. -/
abbrev Renumbering := Array (Option Nat)

def newNumber? (table : Renumbering) (feature : Nat) : Option Nat := table[feature]?.join

def renumber (f : Forest) (table : Renumbering) : Forest where
  sentence := f.sentence
  nodes := f.nodes.map fun node => node.map fun e =>
    { e with features := e.features.filterMap (newNumber? table) }
  roots := f.roots.map fun r => { r with features := r.features.filterMap (newNumber? table) }
  gold := f.gold.filterMap fun (feature, n) => (newNumber? table feature).map fun new => (new, n)

end Forest

end Categorial
