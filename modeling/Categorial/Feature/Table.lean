import Std.Data.HashMap
import Categorial.Feature.Basic
set_option autoImplicit false

namespace Categorial

structure FeatureTable where
  keys : Array Feature
  index : Std.HashMap Feature Nat
  /-- How often each feature was registered. -/
  counts : Array Nat
  symbols : Symbols
  frozen : Bool

namespace FeatureTable

def empty : FeatureTable := ⟨#[], ∅, #[], .empty, false⟩

def size (t : FeatureTable) : Nat := t.keys.size

def get? (t : FeatureTable) (key : Feature) : Option Nat := t.index[key]?

def count (t : FeatureTable) (index : Nat) : Nat := t.counts[index]?.getD 0

def freeze (t : FeatureTable) : FeatureTable := { t with frozen := true }

def thaw (t : FeatureTable) : FeatureTable := { t with frozen := false }

def insert (t : FeatureTable) (key : Feature) : FeatureTable :=
  { t with keys := t.keys.push key, index := t.index.insert key t.size, counts := t.counts.push 0 }

def bump (t : FeatureTable) (index : Nat) : FeatureTable :=
  { t with counts := t.counts.modify index fun n => (n + 1) % UInt32.size }

/-- The number of a feature, which a table that is not frozen adds if it is new. Every success counts
as one occurrence. -/
def register (t : FeatureTable) (key : Feature) : Option Nat × FeatureTable :=
  match t.get? key with
  | some i => (some i, t.bump i)
  | none => if t.frozen then (none, t) else (some t.size, (t.insert key).bump t.size)

/-- Registers features in order; those that the table refuses are left out. -/
def registerAll (t : FeatureTable) : List Feature → List Nat × FeatureTable
  | [] => ([], t)
  | key :: rest =>
    let (i, t) := t.register key
    let (is, t) := t.registerAll rest
    (i.toList ++ is, t)

/-- For every number the number after pruning, if the feature was seen `cutoff` times; `next` is the
first one free. -/
def renumber (cutoff next : Nat) : List Nat → List (Option Nat)
  | [] => []
  | n :: counts =>
    if cutoff ≤ n then some next :: renumber cutoff (next + 1) counts
    else none :: renumber cutoff next counts

def prune (t : FeatureTable) (cutoff : Nat) : List (Option Nat) × FeatureTable :=
  let kept := (t.keys.toList.zip t.counts.toList).filter fun (_, n) => cutoff ≤ n
  let keys := kept.map Prod.fst
  (renumber cutoff 0 t.counts.toList,
    { t with
      keys := keys.toArray
      index := keys.zipIdx.foldl (fun index (key, i) => index.insert key i) ∅
      counts := (kept.map Prod.snd).toArray })

end FeatureTable

end Categorial
