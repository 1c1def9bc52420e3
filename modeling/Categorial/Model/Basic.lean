import Categorial.Derivation.Basic
import Categorial.Grammar.Basic
import Categorial.Scalar
set_option autoImplicit false

/-!
What a scoring model is. A model splits the phrases of one category over one span by a refinement and
scores the steps between refined phrases. A step that does not exist gets an error; one that exists but
that the model holds impossible scores `bottom`.
-/

namespace Categorial

/-- What a model may know about a phrase: the position of its head word and the head's lexical
category. -/
structure Refinement where
  head : Option Nat
  lexcat : Option CatId
  deriving DecidableEq, Repr

def Refinement.none : Refinement := ⟨.none, .none⟩

structure Site where
  cat : CatId
  span : Span
  refinement : Refinement
  deriving DecidableEq, Repr

inductive Expansion where
  | lexical (rule : RuleId) (site : Site)
  | unary (rule : RuleId) (parent child : Site)
  | binary (rule : RuleId) (parent left right : Site)
  | top (rule : RuleId) (root : Site)
  deriving DecidableEq, Repr

def Expansion.rule : Expansion → RuleId
  | lexical r _ => r
  | unary r _ _ => r
  | binary r _ _ _ => r
  | top r _ => r

def Expansion.site : Expansion → Site
  | lexical _ s => s
  | unary _ s _ => s
  | binary _ s _ _ => s
  | top _ s => s

/-- What every scoring call for one sentence may look at. -/
structure Context where
  grammar : Grammar
  sentence : Sentence

namespace Context

def word? (ctx : Context) (position : Option Nat) : Option String :=
  (position.bind ctx.sentence.token?).map Token.word

def pos? (ctx : Context) (position : Option Nat) : Option String :=
  (position.bind ctx.sentence.token?).map Token.pos

def lookupRule (ctx : Context) (rule : RuleId) : Except ScoreError Rule :=
  (ctx.grammar.rule? rule).elim (.error (.unknownRule rule)) .ok

end Context

/-- How far two heads are apart: 0 next to each other or unknown, then 1, 2, and 3 for more. -/
def distanceBin (a b : Option Nat) : Nat :=
  match a, b with
  | some a, some b => min 3 ((a - b) + (b - a) - 1)
  | _, _ => 0

def headRefinement (rule : Rule) (left right : Site) : Refinement :=
  match rule.headSide? with
  | some .right => right.refinement
  | _ => left.refinement

def Context.childRefinement (ctx : Context) (rule : RuleId) (left right : Site) : Refinement :=
  match ctx.grammar.rule? rule with
  | some r => headRefinement r left right
  | none => .none

def Rule.misfit (rule : Rule) (site : Site) : ScoreError :=
  .invalidExpansion rule.id s!"cat #{site.cat} over {site.span.text}"

def Expansion.fits (rule : Rule) : Expansion → Bool
  | lexical _ site =>
    rule.production == .terminal && rule.result == site.cat && site.span.length == 1
  | unary _ parent child =>
    rule.production == .unary child.cat && rule.result == parent.cat && parent.span == child.span
  | binary _ parent left right =>
    rule.production == .binary left.cat right.cat && rule.result == parent.cat &&
      left.span.stop == right.span.start
  | top _ root => rule.production == .unary root.cat

def Expansion.check (ctx : Context) (e : Expansion) : Except ScoreError Rule := do
  let rule ← ctx.lookupRule e.rule
  if e.fits rule then pure rule else throw (rule.misfit e.site)

structure Refiner where
  name : String
  grammarId : Nat
  refineLexical : Context → CatId → Nat → Refinement
  refineUnary : Context → RuleId → Site → Refinement
  refineBinary : Context → RuleId → Site → Site → Refinement

namespace Refiner

def walk (m : Refiner) (ctx : Context) :
    Derivation → Except ScoreError (Site × List Expansion)
  | .leaf step span =>
    let site : Site := ⟨step.cat, span, m.refineLexical ctx step.cat span.start⟩
    .ok (site, [.lexical step.rule site])
  | .branch step span [child] => do
    let (child, below) ← m.walk ctx child
    let parent : Site := ⟨step.cat, span, m.refineUnary ctx step.rule child⟩
    pure (parent, below ++ [.unary step.rule parent child])
  | .branch step span [left, right] => do
    let (left, belowLeft) ← m.walk ctx left
    let (right, belowRight) ← m.walk ctx right
    let parent : Site := ⟨step.cat, span, m.refineBinary ctx step.rule left right⟩
    pure (parent, belowLeft ++ belowRight ++ [.binary step.rule parent left right])
  | .branch step span children =>
    .error (.invalidExpansion step.rule s!"node over {span.text} with {children.length} children")

def expansions (m : Refiner) (ctx : Context) (t : Derivation) :
    Except ScoreError (List Expansion) := do
  let (root, steps) ← m.walk ctx t
  match ctx.grammar.topRule? root.cat with
  | some rule => pure (steps ++ [.top rule root])
  | none => throw (.invalidExpansion Text.idBound s!"cat #{root.cat} is not a start category")

end Refiner

structure Model (α : Type) extends Refiner where
  score : Context → Expansion → Except ScoreError α
  /-- A cheap estimate of what the rest of a derivation scores; only beams use it. -/
  merit : Context → Site → α

namespace Model

variable {α : Type} [Scalar α]

def scoreSteps (m : Model α) (ctx : Context) (total : α) : List Expansion → Except ScoreError α
  | [] => .ok total
  | e :: rest => do
    let x ← m.score ctx e
    m.scoreSteps ctx (Scalar.both total x) rest

/-- The score of a derivation with its top step. The first step that does not exist is the error. -/
def scoreDerivation (m : Model α) (ctx : Context) (t : Derivation) : Except ScoreError α := do
  let steps ← m.expansions ctx t
  m.scoreSteps ctx Scalar.zero steps

end Model

end Categorial
