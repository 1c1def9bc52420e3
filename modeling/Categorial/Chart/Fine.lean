import Categorial.Bisection
import Categorial.Chart.Coarse
import Categorial.Model.Basic
set_option autoImplicit false

/-!
The fine chart splits the items of a coarse chart by a model's refinements and scores them. Items are
created with their children first, so an item's id is larger than the ids of the items it is built
from.
-/

namespace Categorial

abbrev FineId := Nat

/-- Which ways to build an item are kept. -/
inductive Retain where
  | best
  | kBest (k : Nat)
  | all
  deriving DecidableEq, Repr

inductive FineStep where
  | lexical (rule : RuleId) (word : Nat)
  | unary (rule : RuleId) (child : FineId)
  | binary (rule : RuleId) (left right : FineId)
  deriving DecidableEq, Repr

namespace FineStep

def rule : FineStep → RuleId
  | lexical r _ => r
  | unary r _ => r
  | binary r _ _ => r

def children : FineStep → List FineId
  | lexical _ _ => []
  | unary _ c => [c]
  | binary _ l r => [l, r]

end FineStep

/-- One way to build a fine item. The score is the local one and those of the children together. -/
structure FineEdge (α : Type) where
  step : FineStep
  localScore : α
  score : α
  deriving Repr

structure FineItem (α : Type) where
  coarse : CoarseId
  site : Site
  /-- That of the first edge. -/
  score : α
  /-- In descending order of their scores. -/
  edges : List (FineEdge α)
  pruned : Bool
  deriving Repr

/-- An item over the whole sentence that may end a derivation. -/
structure Root (α : Type) where
  item : FineId
  rule : RuleId
  localScore : α
  score : α
  deriving Repr

/-- How many entries of a list in descending order stay ahead of a new one: those that score at least as
much. -/
def rank {α β : Type} [Scalar α] (score : β → α) (x : β) (xs : List β) : Nat :=
  turningPoint (fun y => Scalar.le (score x) (score y)) xs

def insertByScore {α β : Type} [Scalar α] (score : β → α) (x : β) (xs : List β) : List β :=
  let place := rank score x xs
  xs.take place ++ x :: xs.drop place

theorem insertByScore_append {α β : Type} [Scalar α] (score : β → α) (x : β) (ahead behind : List β)
    (ha : ∀ y ∈ ahead, Scalar.le (score x) (score y) = true)
    (hb : ∀ y ∈ behind, Scalar.le (score x) (score y) = false) :
    insertByScore score x (ahead ++ behind) = ahead ++ x :: behind := by
  simp [insertByScore, rank, turningPoint_append _ ahead behind ha hb]

def retainEdge {α : Type} [Scalar α] (retain : Retain) (edges : List (FineEdge α))
    (edge : FineEdge α) : List (FineEdge α) :=
  match retain with
  | .best =>
    match edges with
    | [] => [edge]
    | first :: _ => if Scalar.lt first.score edge.score then [edge] else edges
  | .kBest k =>
    if rank FineEdge.score edge edges < k then (insertByScore FineEdge.score edge edges).take k
    else edges
  | .all => insertByScore FineEdge.score edge edges

structure FineChart (α : Type) where
  coarse : CoarseChart α
  items : Array (FineItem α)
  /-- The items of each coarse item that no beam has removed. -/
  live : Std.HashMap CoarseId (List FineId)
  roots : List (Root α)

namespace FineChart

variable {α : Type}

def unscored (c : CoarseChart α) : FineChart α := ⟨c, #[], ∅, []⟩

def liveOf (f : FineChart α) (id : CoarseId) : List FineId := f.live.getD id []

def item? (f : FineChart α) (id : FineId) : Option (FineItem α) := f.items[id]?

def liveItems (f : FineChart α) (id : CoarseId) : List (FineId × FineItem α) :=
  (f.liveOf id).filterMap fun i => (f.item? i).map fun item => (i, item)

def context (f : FineChart α) : Context := ⟨f.coarse.grammar, f.coarse.sentence⟩

def hasParse (f : FineChart α) : Bool := !f.roots.isEmpty

variable [Scalar α]

def edge? (m : Model α) (ctx : Context) (site : Site) (e : Expansion) (step : FineStep)
    (score : α → α) : Option (Site × FineEdge α) :=
  match m.score ctx e with
  | .ok x => some (site, ⟨step, x, score x⟩)
  | .error _ => none

def edgesOf (f : FineChart α) (m : Model α) (item : CoarseItem) :
    CoarseStep → List (Site × FineEdge α)
  | .lexical rule word =>
    let site : Site := ⟨item.cat, item.span, m.refineLexical f.context item.cat word⟩
    (edge? m f.context site (.lexical rule site) (.lexical rule word) id).toList
  | .unary rule child =>
    (f.liveItems child).filterMap fun (c, childItem) =>
      let site : Site := ⟨item.cat, item.span, m.refineUnary f.context rule childItem.site⟩
      edge? m f.context site (.unary rule site childItem.site) (.unary rule c) fun x =>
        Scalar.both x childItem.score
  | .binary rule left right =>
    (f.liveItems left).flatMap fun (l, leftItem) =>
      (f.liveItems right).filterMap fun (r, rightItem) =>
        let site : Site :=
          ⟨item.cat, item.span, m.refineBinary f.context rule leftItem.site rightItem.site⟩
        edge? m f.context site (.binary rule site leftItem.site rightItem.site) (.binary rule l r)
          fun x => Scalar.both x (Scalar.both leftItem.score rightItem.score)

def addEdge (retain : Retain) (coarse : CoarseId) (group : List (FineItem α))
    (found : Site × FineEdge α) : List (FineItem α) :=
  match group with
  | [] => [⟨coarse, found.1, found.2.score, [found.2], false⟩]
  | item :: rest =>
    if item.site.refinement = found.1.refinement then
      let edges := retainEdge retain item.edges found.2
      { item with edges, score := (edges.head?).elim item.score FineEdge.score } :: rest
    else item :: addEdge retain coarse rest found

def refine (f : FineChart α) (m : Model α) (retain : Retain) (id : CoarseId) (item : CoarseItem) :
    List (FineItem α) :=
  (item.steps.toList.flatMap (f.edgesOf m item)).foldl (addEdge retain id) []

def addItems (f : FineChart α) (id : CoarseId) (group : List (FineItem α)) : FineChart α :=
  let ids := List.range' f.items.size group.length
  { f with items := f.items ++ group.toArray, live := f.live.insert id ids }

def expand (m : Model α) (retain : Retain) (f : FineChart α) (entry : CoarseId × CoarseItem) :
    FineChart α :=
  f.addItems entry.1 (f.refine m retain entry.1 entry.2)

def meritOf (f : FineChart α) (m : Model α) (item : FineItem α) : α :=
  Scalar.both item.score (m.merit f.context item.site)

def threshold? (f : FineChart α) (m : Model α) (first : FineId) (beam : α) : Option α :=
  let best := ((f.items.drop first).toList.map (f.meritOf m)).foldl Scalar.max Scalar.bottom
  if Scalar.isBottom best then none else some (best + Scalar.log beam)

/-- Marks the items from `first` on that fall out of the beam, and takes them from the live ones. -/
def prune (f : FineChart α) (m : Model α) (cell : List CoarseId) (first : FineId) (beam : α) :
    FineChart α :=
  match f.threshold? m first beam with
  | none => f
  | some threshold =>
    let falls (i : FineId) : Bool :=
      (f.items[i]?).any fun item => Scalar.lt (f.meritOf m item) threshold
    let fallen := (List.range' first (f.items.size - first)).filter falls
    { f with
      items := fallen.foldl (fun items i => items.modify i fun item =>
        { item with pruned := true }) f.items
      live := cell.foldl (fun live id =>
        live.insert id ((live.getD id []).filter fun i => !fallen.contains i)) f.live }

def levels (cell : List (CoarseId × CoarseItem)) : List (CoarseId × CoarseItem) :=
  cell.filter (fun (_, item) => item.level == .base) ++
    cell.filter (fun (_, item) => item.level == .unary)

def fill (m : Model α) (retain : Retain) (beam : Option α) (f : FineChart α) (span : Span) :
    FineChart α :=
  let entries := levels (f.coarse.itemsOver span)
  match beam with
  | none => entries.foldl (expand m retain) f
  | some beam =>
    let first := f.items.size
    (entries.foldl (expand m retain) f).prune m (entries.map Prod.fst) first beam

/-- The root that an item over the whole sentence makes, unless the model rules it out. -/
def root? (f : FineChart α) (m : Model α) (rule : RuleId) (id : FineId) (item : FineItem α) :
    Option (Root α) :=
  match m.score f.context (.top rule item.site) with
  | .ok x =>
    let score := Scalar.both x item.score
    if Scalar.isBottom score then none else some ⟨id, rule, x, score⟩
  | .error _ => none

def findRoots (f : FineChart α) (m : Model α) : List (Root α) :=
  let found := (f.coarse.itemsOver f.coarse.wholeSpan).flatMap fun (id, item) =>
    match f.coarse.grammar.topRule? item.cat with
    | some rule => (f.liveItems id).filterMap fun (i, fine) => f.root? m rule i fine
    | none => []
  found.foldl (fun roots r => insertByScore Root.score r roots) []

def build (c : CoarseChart α) (m : Model α) (retain : Retain) (beam : Option α) :
    Except Error (FineChart α) := do
  c.grammar.check m.grammarId
  let f := (spansOf c.sentence.length).foldl (fill m retain beam) (unscored c)
  pure { f with roots := f.findRoots m }

end FineChart

end Categorial
