import Categorial.Chart.Fine
import Categorial.Forest.Basic
import Categorial.Model.Perceptron
set_option autoImplicit false

namespace Categorial

/-- A step of a derivation seen from outside: what it builds, by which rule, and where its children
lie. -/
structure StepKey where
  span : Span
  cat : CatId
  rule : RuleId
  children : List Span
  deriving DecidableEq, Repr

namespace Derivation

mutual

def stepKeys : Derivation → List StepKey
  | leaf step span => [⟨span, step.cat, step.rule, []⟩]
  | branch step span children =>
    ⟨span, step.cat, step.rule, children.map Derivation.span⟩ :: stepKeysOf children

def stepKeysOf : List Derivation → List StepKey
  | [] => []
  | t :: ts => t.stepKeys ++ stepKeysOf ts

end

end Derivation

namespace FineChart

variable {α : Type}

def siteOf (f : FineChart α) (id : FineId) : Site :=
  (f.item? id).elim ⟨0, ⟨0, 0⟩, .none⟩ FineItem.site

def expansionOf (f : FineChart α) (site : Site) : FineStep → Expansion
  | .lexical rule _ => .lexical rule site
  | .unary rule child => .unary rule site (f.siteOf child)
  | .binary rule left right => .binary rule site (f.siteOf left) (f.siteOf right)

def keyOf (f : FineChart α) (site : Site) (step : FineStep) : StepKey :=
  ⟨site.span, site.cat, step.rule, step.children.map fun c => (f.siteOf c).span⟩

end FineChart

/-- A computation that registers features with a model and keeps them when it fails. -/
abbrev Registering (α β : Type) := ExceptT Error (StateM (Perceptron α)) β

namespace Registering

variable {α β : Type}

def check (x : Except Error β) : Registering α β := ExceptT.mk (pure x)

def features (ctx : Context) (e : Expansion) : Registering α (List Nat) := do
  match (← get).register ctx e with
  | .ok (features, m) => do
    set m
    pure features
  | .error cause => throw (.unlicensed (.step cause))

/-- What a computation gives, or nothing if it fails. -/
def attempt (x : Registering α (Option β)) : Registering α (Option β) :=
  tryCatch x fun _ => pure none

end Registering

namespace Forest

variable {α : Type}

def isGold (nodes : Array ForestNode) (node : Nat) : Bool :=
  (nodes[node]?).any fun edges => edges.any ForestEdge.gold

def packEdge (f : FineChart α) (gold : List StepKey) (nodes : Array ForestNode) (site : Site)
    (e : FineEdge α) : Registering α ForestEdge := do
  let children := e.step.children
  let isGold := gold.contains (f.keyOf site e.step) && children.all (isGold nodes)
  let features ← Registering.features f.context (f.expansionOf site e.step)
  pure ⟨children, features, isGold⟩

def packItem (f : FineChart α) (gold : List StepKey) (nodes : Array ForestNode)
    (item : FineItem α) : Registering α (Array ForestNode) := do
  let edges ← item.edges.mapM (packEdge f gold nodes item.site)
  pure (nodes.push edges)

def packRoot (f : FineChart α) (gold : Derivation) (nodes : Array ForestNode) (r : Root α) :
    Registering α ForestRoot := do
  let site := f.siteOf r.item
  let features ← Registering.features f.context (.top r.rule site)
  pure ⟨r.item, features,
    isGold nodes r.item && site.span == gold.span && site.cat == gold.step.cat⟩

def pack (f : FineChart α) (sentence : Nat) (gold : Derivation) :
    Registering α (Option Forest) := do
  let m ← get
  let steps ← Registering.check
    ((m.refiner.expansions f.context gold).mapError fun cause => .unlicensed (.step cause))
  let goldFeatures ← steps.mapM (Registering.features f.context)
  let nodes ← f.items.toList.foldlM (packItem f gold.stepKeys) #[]
  let roots ← f.roots.mapM (packRoot f gold nodes)
  pure (if roots.any ForestRoot.gold then
    some ⟨sentence, nodes.toList, roots, (Tally.ofList goldFeatures.flatten).toList⟩
  else none)

end Forest

end Categorial
