import Categorial.Grammar.Rule
import Categorial.Sentence
set_option autoImplicit false

namespace Categorial

/-- The category that a step builds and the rule that builds it. -/
structure Step where
  cat : CatId
  rule : RuleId
  deriving DecidableEq, Repr

def Step.ids (s : Step) : String := s!"#{s.cat} (rule {s.rule})"

inductive Derivation where
  | leaf (step : Step) (span : Span)
  | branch (step : Step) (span : Span) (children : List Derivation)
  deriving Repr

namespace Derivation

/-- What holds of leaves, and of a branch once it holds of its children, holds of every derivation. -/
theorem induction {P : Derivation → Prop} (leaf : ∀ step span, P (leaf step span))
    (branch : ∀ step span children, (∀ c ∈ children, P c) → P (branch step span children)) :
    ∀ t, P t
  | .leaf step span => leaf step span
  | .branch step span children =>
    branch step span children fun c _ => induction leaf branch c

def step : Derivation → Step
  | leaf s _ => s
  | branch s _ _ => s

def span : Derivation → Span
  | leaf _ s => s
  | branch _ s _ => s

def isLeaf : Derivation → Bool
  | leaf _ _ => true
  | branch _ _ _ => false

mutual

def leaves : Derivation → List (Step × Span)
  | leaf step span => [(step, span)]
  | branch _ _ children => leavesOf children

def leavesOf : List Derivation → List (Step × Span)
  | [] => []
  | t :: ts => t.leaves ++ leavesOf ts

end

mutual

def beq : Derivation → Derivation → Bool
  | leaf s p, leaf s' p' => s == s' && p == p'
  | branch s p cs, branch s' p' cs' => s == s' && p == p' && beqs cs cs'
  | _, _ => false

def beqs : List Derivation → List Derivation → Bool
  | [], [] => true
  | c :: cs, c' :: cs' => beq c c' && beqs cs cs'
  | _, _ => false

end

def label (shown : Step → String) (step : Step) (span : Span) : String :=
  s!"{span.text}: " ++ shown step

def lineStart (depth : Nat) : String := String.ofList ('\n' :: List.replicate (2 * depth) ' ')

mutual

/-- A single child stands in parentheses on the line of its parent; two and more have lines of their
own, one level deeper. -/
def displayAt (shown : Step → String) (depth : Nat) : Derivation → String
  | leaf step span => label shown step span
  | branch step span [child] => s!"({label shown step span} ({child.displayAt shown depth}))"
  | branch step span children =>
    "(" ++ label shown step span ++ String.join (displayLines shown (depth + 1) children) ++ ")"

def displayLines (shown : Step → String) (depth : Nat) : List Derivation → List String
  | [] => []
  | t :: ts => (lineStart depth ++ t.displayAt shown depth) :: displayLines shown depth ts

end

def display (shown : Step → String) (t : Derivation) : String := t.displayAt shown 0

def ids (t : Derivation) : String := t.display Step.ids

end Derivation

end Categorial
