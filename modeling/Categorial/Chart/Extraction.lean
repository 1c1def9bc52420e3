import Std.Data.TreeSet
import Categorial.Chart.Fine
import Categorial.Heap
import Categorial.Ranking
set_option autoImplicit false

/-!
The derivations of a fine chart: the best one along the first edges, and the best `k` in order. For
these, every item gets the ranking of its derivations from the rankings of its children: a derivation is
an edge with one place in the ranking of each child, and each one taken makes its neighbours, one place
further in one child, available. Of equal scores the earlier edge comes first, then the earlier places.
A place is computed when a derivation above it needs it.
-/

namespace Categorial

structure Parse (α : Type) where
  tree : Derivation
  score : α
  deriving Repr

def FineStep.node (site : Site) (children : List Derivation) : FineStep → Derivation
  | .lexical rule _ => .leaf ⟨site.cat, rule⟩ site.span
  | .unary rule _ => .branch ⟨site.cat, rule⟩ site.span children
  | .binary rule _ _ => .branch ⟨site.cat, rule⟩ site.span children

/-- A derivation of an item: one of its edges, and which derivation of each child. -/
structure Candidate (α : Type) where
  parse : Parse α
  edge : Nat
  /-- The places of the children's derivations, from zero. -/
  ranks : List Nat
  /-- The children's rankings from these places on. -/
  children : List (Ranking (Parse α))

namespace Candidate

variable {α : Type}

def key (c : Candidate α) : List Nat := c.edge :: c.ranks

def successors {β : Type} : List Nat → List (Ranking β) → List (List Nat × List (Ranking β))
  | r :: rs, c :: cs =>
    ((r + 1) :: rs, c.tail :: cs) ::
      (successors rs cs).map fun (ranks, children) => (r :: ranks, c :: children)
  | _, _ => []

def before [Scalar α] (a b : Candidate α) : Bool :=
  (Scalar.compare b.parse.score a.parse.score).then (compare a.key b.key) == .lt

end Candidate

/-- An edge as the ranking of derivations sees it. -/
structure RankedEdge (α : Type) where
  localScore : α
  score : α
  children : List (Ranking (Parse α))
  node : List Derivation → Derivation

namespace RankedEdge

variable {α : Type} [Scalar α]

/-- The derivation at some places of the children, unless it does not exist or is impossible. Its score
is added up from the local one. -/
def candidate? (index : Nat) (e : RankedEdge α) (ranks : List Nat)
    (children : List (Ranking (Parse α))) : Option (Candidate α) := do
  let picked ← children.mapM Ranking.head?
  let score := picked.foldl (fun x p => Scalar.both x p.score) e.localScore
  if Scalar.isBottom score then none
  else some ⟨⟨e.node (picked.map Parse.tree), score⟩, index, ranks, children⟩

def first? (index : Nat) (e : RankedEdge α) : Option (Candidate α) :=
  if Scalar.isBottom e.score then none
  else
    let picked := e.children.filterMap Ranking.head?
    some ⟨⟨e.node (picked.map Parse.tree), e.score⟩, index, e.children.map fun _ => 0, e.children⟩

end RankedEdge

/-- Derivations that can be taken next, and the keys of all that were ever available. -/
structure Frontier (α : Type) where
  waiting : Heap (Candidate α)
  seen : Std.TreeSet (List Nat)

namespace Frontier

variable {α : Type} [Scalar α]

def start (edges : List (RankedEdge α)) : Frontier α :=
  let firsts := edges.zipIdx.filterMap fun (e, i) => e.first? i
  ⟨firsts.foldl (Heap.push Candidate.before) .empty, Std.TreeSet.ofList (firsts.map Candidate.key)⟩

def offer (index : Nat) (e : RankedEdge α) (f : Frontier α)
    (place : List Nat × List (Ranking (Parse α))) : Frontier α :=
  if f.seen.contains (index :: place.1) then f
  else
    ⟨match e.candidate? index place.1 place.2 with
      | some c => f.waiting.push Candidate.before c
      | none => f.waiting,
      f.seen.insert (index :: place.1)⟩

def advance (edges : Array (RankedEdge α)) (f : Frontier α) (c : Candidate α) : Frontier α :=
  match edges[c.edge]? with
  | some e => (Candidate.successors c.ranks c.children).foldl (offer c.edge e) f
  | none => f

def ranking (edges : Array (RankedEdge α)) : Nat → Frontier α → Ranking (Parse α)
  | 0, _ => .nil
  | k + 1, f =>
    match f.waiting.pop? Candidate.before with
    | none => .nil
    | some (c, rest) =>
      .cons c.parse (Thunk.mk fun _ => ranking edges k (advance edges { f with waiting := rest } c))

end Frontier

namespace FineChart

variable {α : Type} [Scalar α]

def rank (k : Nat) (edges : List (RankedEdge α)) : Ranking (Parse α) :=
  Frontier.ranking edges.toArray k (Frontier.start edges)

def rankedEdges (rankings : Array (Ranking (Parse α))) (item : FineItem α) : List (RankedEdge α) :=
  item.edges.map fun e =>
    ⟨e.localScore, e.score, e.step.children.map fun c => rankings[c]?.getD .nil,
      fun trees => e.step.node item.site trees⟩

def rankings (f : FineChart α) (k : Nat) : Array (Ranking (Parse α)) :=
  f.items.foldl (fun rankings item => rankings.push (rank k (rankedEdges rankings item))) #[]

def rootEdges (f : FineChart α) (rankings : Array (Ranking (Parse α))) : List (RankedEdge α) :=
  f.roots.map fun r => ⟨r.localScore, r.score, [rankings[r.item]?.getD .nil], fun trees =>
    trees.head?.getD (.branch ⟨0, 0⟩ ⟨0, 0⟩ [])⟩

def kBest (f : FineChart α) (k : Nat) : List (Parse α) :=
  (rank k (f.rootEdges (f.rankings k))).take k

def bestTrees (f : FineChart α) : Array Derivation :=
  f.items.foldl (fun trees item =>
    trees.push (match item.edges with
      | e :: _ => e.step.node item.site (e.step.children.filterMap fun c => trees[c]?)
      | [] => .branch ⟨0, 0⟩ item.site.span [])) #[]

def viterbi? (f : FineChart α) : Option (Parse α) := do
  let root ← f.roots.head?
  let tree ← f.bestTrees[root.item]?
  pure ⟨tree, root.score⟩

end FineChart

end Categorial
