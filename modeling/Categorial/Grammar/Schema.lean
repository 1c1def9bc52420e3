import Categorial.Category.Basic
import Categorial.Grammar.Rule
set_option autoImplicit false

namespace Categorial

def Combinator.result? : Combinator → Category → Category → Option Category
  | .fwdApp, .functor x .forward y, right => (y.matches? right).map fun b => x.substitute b
  | .bwdApp, left, .functor x .backward y => (y.matches? left).map fun b => x.substitute b
  | .fwdComp, .functor x .forward y, .functor u .forward z =>
    (y.matches? u).map fun b => .functor (x.substitute b) .forward z
  | .bwdComp, .functor u .backward z, .functor x .backward y =>
    (y.matches? u).map fun b => .functor (x.substitute b) .backward z
  | .bwdCrossComp, .functor u .forward z, .functor x .backward y =>
    -- only functors cross
    if y.isFunctor then (y.matches? u).map fun b => .functor (x.substitute b) .forward z else none
  | .conj, left, right =>
    if left.isConjunction && !right.isPunct && !right.isConj then some (.conj right) else none
  | .coord, left, .conj inner =>
    if (inner.matches? left).isSome && !left.isConj then some left else none
  | .leftPunct, left, right => if left.isPunct && !right.isPunct then some right else none
  | .rightPunct, left, right => if right.isPunct && !left.isPunct then some left else none
  | _, _, _ => none

end Categorial
