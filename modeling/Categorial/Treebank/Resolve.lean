import Categorial.Derivation.Basic
import Categorial.Grammar.Basic
import Categorial.Treebank.Basic
set_option autoImplicit false

namespace Categorial

namespace Grammar

def builds (g : Grammar) (result : CatId) (id : RuleId) : Bool :=
  match g.rule? id with
  | some r => r.result == result
  | none => false

/-- The derivation of a node whose words start at `next`, and where the words after it start. -/
def resolveNode (g : Grammar) : BankTree → Nat → Except Unlicensed (Derivation × Nat)
  | .leaf c _, next => do
    let cat ← (g.catIdOf? c).elim (.error (.unknownCategory c.text)) .ok
    let rule ← (g.lexicalRule? cat).elim (.error (.notLexical c.text)) .ok
    pure (.leaf ⟨cat, rule⟩ (.word next), next + 1)
  | .node c _ [child], next => do
    let cat ← (g.catIdOf? c).elim (.error (.unknownCategory c.text)) .ok
    let (child, next) ← g.resolveNode child next
    let childCat := child.step.cat
    let rule ← ((g.unaryRules childCat).find? (g.builds cat)).elim
      (.error (.noUnary (g.catText childCat) c.text)) .ok
    pure (.branch ⟨cat, rule⟩ child.span [child], next)
  | .node c _ [left, right], next => do
    let cat ← (g.catIdOf? c).elim (.error (.unknownCategory c.text)) .ok
    let (left, next) ← g.resolveNode left next
    let (right, next) ← g.resolveNode right next
    let l := left.step.cat
    let r := right.step.cat
    let rule ← ((g.binaryRules l r).find? (g.builds cat)).elim
      (.error (.noBinary (g.catText l) (g.catText r) c.text)) .ok
    pure (.branch ⟨cat, rule⟩ (left.span.join right.span) [left, right], next)
  | .node c _ children, _ => do
    let _ ← (g.catIdOf? c).elim (.error (.unknownCategory c.text)) .ok
    throw (.childrenFound c.text children.length)

def resolve (g : Grammar) (t : BankTree) : Except Error Derivation := do
  let (d, _) ← (g.resolveNode t 0).mapError .unlicensed
  if g.isStart d.step.cat then pure d
  else throw (.unlicensed (.notStart (g.catText d.step.cat)))

end Grammar

end Categorial
