import Categorial.Category.Basic
set_option autoImplicit false

namespace Categorial

structure Markup where
  headSlot : Option Nat
  silent : List Nat
  deriving DecidableEq, Repr

namespace Markup

def isSilent (m : Markup) (slot : Nat) : Bool := m.silent.contains slot

/-- Of a modifier or a raised category only the outermost argument, which is the head, gives a
dependency. -/
def default (c : Category) : Markup :=
  if c.isModifier || c.isRaised then ⟨some c.arity, (List.range (c.arity - 1)).map (· + 1)⟩
  else ⟨none, []⟩

def headFromOuter (m : Markup) (c : Category) : Bool := c.isFunctor && m.headSlot == some c.arity

def determiner : Markup := ⟨some 1, [1]⟩

end Markup

end Categorial
