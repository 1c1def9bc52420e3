import Categorial.Chart.Extraction
import Categorial.Config
set_option autoImplicit false

namespace Categorial

variable {α : Type} [Scalar α]

/-- The first chart along the beams that spans the sentence. A chart that grows too large ends the
search: wider beams would need no fewer items. -/
def ladderChart (g : Grammar) (s : Sentence) (tags : Supertags α) (maxItems : Nat) :
    List α → Except ParseFailure (CoarseChart α)
  | [] => .error .coarse
  | beta :: betas =>
    match CoarseChart.build g s tags beta maxItems with
    | .error .coarse => ladderChart g s tags maxItems betas
    | result => result

structure Parser (α : Type) where
  grammar : Grammar
  model : Model α
  config : ParserConfig α

def ParserConfig.coarseChart (c : ParserConfig α) (g : Grammar) (s : Sentence)
    (tags : Supertags α) : Except ParseFailure (CoarseChart α) :=
  if c.maxLength < s.length then .error .abandoned
  else ladderChart g s tags c.maxItems c.betas

namespace Parser

def create [Written α] (g : Grammar) (m : Model α) (c : ParserConfig α) :
    Except Error (Parser α) := do
  c.validate
  g.check m.grammarId
  pure ⟨g, m, c⟩

def coarse (p : Parser α) (s : Sentence) (tags : Supertags α) :
    Except ParseFailure (CoarseChart α) :=
  p.config.coarseChart p.grammar s tags

/-- A scored chart with at least one root. -/
def chart (p : Parser α) (s : Sentence) (tags : Supertags α) :
    Except ParseFailure (FineChart α) := do
  let c ← p.coarse s tags
  match FineChart.build c p.model p.config.retain p.config.fineBeam with
  | .error _ => throw .fine
  | .ok f => if f.hasParse then pure f else throw .fine

def parse (p : Parser α) (s : Sentence) (tags : Supertags α) : Except ParseFailure (Parse α) := do
  let f ← p.chart s tags
  f.viterbi?.elim (throw .fine) pure

def kBest (p : Parser α) (s : Sentence) (tags : Supertags α) (k : Nat) :
    Except ParseFailure (List (Parse α)) := do
  let f ← p.chart s tags
  pure (f.kBest k)

end Parser

end Categorial
