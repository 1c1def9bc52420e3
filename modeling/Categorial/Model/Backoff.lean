import Std.Data.HashMap
import Std.Data.HashSet
import Categorial.Scalar
set_option autoImplicit false

/-!
Conditional distributions that back off to shorter contexts. A context is ordered from general to
special, so backing off means looking at a shorter beginning of it. At each level the relative frequency
is interpolated with the level below, in proportion to how many events and how many different outcomes
the context has seen.
-/

namespace Categorial

/-- The events seen in one context. -/
structure Outcomes where
  total : Nat
  counts : Std.HashMap Nat Nat

namespace Outcomes

def empty : Outcomes := ⟨0, ∅⟩

def count (o : Outcomes) (outcome : Nat) : Nat := o.counts.getD outcome 0

def add (o : Outcomes) (outcome : Nat) : Outcomes :=
  ⟨o.total + 1, o.counts.insert outcome (o.count outcome + 1)⟩

def types (o : Outcomes) : Nat := o.counts.size

end Outcomes

/-- Events by the first `width` symbols of their context. -/
structure Distribution where
  width : Nat
  contexts : Std.HashMap (List Nat) Outcomes
  /-- Every outcome seen in any context. -/
  vocabulary : Std.HashSet Nat

namespace Distribution

def empty (width : Nat) : Distribution := ⟨width, ∅, ∅⟩

def key (d : Distribution) (context : List Nat) : List Nat := context.take d.width

def observe (d : Distribution) (context : List Nat) (outcome : Nat) : Distribution :=
  let key := d.key context
  { d with
    contexts := d.contexts.insert key ((d.contexts.getD key .empty).add outcome)
    vocabulary := d.vocabulary.insert outcome }

variable {α : Type} [Scalar α]

def interpolate (d : Distribution) (context : List Nat) (outcome : Nat) (lower : α) : α :=
  match d.contexts[d.key context]? with
  | none => lower
  | some o =>
    let n : α := Scalar.ofNat o.total
    let t : α := Scalar.ofNat o.types
    let weight := n / (n + t)
    weight * (Scalar.ofNat (o.count outcome) / n) + (Scalar.one - weight) * lower

end Distribution

inductive Backoff where
  | base (d : Distribution)
  | specific (d : Distribution) (rest : Backoff)

namespace Backoff

def chainFrom (base : Nat) : Nat → Backoff
  | 0 => .base (.empty base)
  | more + 1 => .specific (.empty (base + (more + 1))) (chainFrom base more)

def chain (full base : Nat) : Backoff := chainFrom base (full - base)

def observe (context : List Nat) (outcome : Nat) : Backoff → Backoff
  | .base d => .base (d.observe context outcome)
  | .specific d rest => .specific (d.observe context outcome) (rest.observe context outcome)

variable {α : Type} [Scalar α]

/-- Below the base all outcomes seen and one more are equally likely, so that no probability is zero. -/
def probability (context : List Nat) (outcome : Nat) : Backoff → α
  | .base d =>
    d.interpolate context outcome
      (Scalar.one / (Scalar.ofNat d.vocabulary.size + Scalar.one))
  | .specific d rest => d.interpolate context outcome (rest.probability context outcome)

def logProbability (b : Backoff) (context : List Nat) (outcome : Nat) : α :=
  Scalar.ofProbability (b.probability context outcome)

end Backoff

end Categorial
