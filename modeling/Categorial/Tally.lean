set_option autoImplicit false

namespace Categorial

structure Tally (κ : Type) where
  entries : List (κ × Nat)

namespace Tally

variable {κ : Type} [Ord κ]

def empty : Tally κ := ⟨[]⟩

/-- Changes the count of a key; a key that is not there counts as absent. -/
def alterEntries (f : Option Nat → Nat) (k : κ) : List (κ × Nat) → List (κ × Nat)
  | [] => [(k, f none)]
  | (k', n) :: rest =>
    match compare k k' with
    | .lt => (k, f none) :: (k', n) :: rest
    | .eq => (k', f (some n)) :: rest
    | .gt => (k', n) :: alterEntries f k rest

def alter (t : Tally κ) (f : Option Nat → Nat) (k : κ) : Tally κ := ⟨alterEntries f k t.entries⟩

def touch (t : Tally κ) (k : κ) : Tally κ := t.alter (·.getD 0) k

def add (t : Tally κ) (k : κ) (n : Nat) : Tally κ := t.alter (fun m => (m.getD 0 + n) % UInt32.size) k

def clear (t : Tally κ) (k : κ) : Tally κ := t.alter (fun _ => 0) k

/-- How often each key is in a list, as far as the counters go. -/
def ofList (keys : List κ) : Tally κ := keys.foldl (fun t k => t.add k 1) empty

def toList (t : Tally κ) : List (κ × Nat) := t.entries

end Tally

end Categorial
