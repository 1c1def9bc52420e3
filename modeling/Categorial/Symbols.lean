import Std.Data.HashMap
set_option autoImplicit false

namespace Categorial

structure Symbols where
  strings : Array String
  ids : Std.HashMap String Nat

namespace Symbols

def empty : Symbols := ⟨#[], ∅⟩

def size (s : Symbols) : Nat := s.strings.size

def get? (s : Symbols) (x : String) : Option Nat := s.ids[x]?

def resolve? (s : Symbols) (id : Nat) : Option String := s.strings[id]?

/-- The number of a string, which is added if it is new. -/
def intern (s : Symbols) (x : String) : Nat × Symbols :=
  match s.ids[x]? with
  | some id => (id, s)
  | none => (s.size, ⟨s.strings.push x, s.ids.insert x s.size⟩)

/-- Whether strings that are not known are added. -/
inductive Access where
  | known
  | grow
  deriving DecidableEq, Repr

def find (s : Symbols) (access : Access) (x : String) : Option Nat × Symbols :=
  match access with
  | .known => (s.get? x, s)
  | .grow =>
    let (id, s) := s.intern x
    (some id, s)

end Symbols

export Symbols (Access)

end Categorial
