import Categorial.Chart.Coarse
import Categorial.Decimal.Written
import Categorial.Dependency
import Categorial.Derivation.Render
set_option autoImplicit false

namespace Categorial

structure Statistics where
  sentences : Nat
  parsed : Nat
  coarseFailures : Nat
  fineFailures : Nat
  abandoned : Nat
  /-- Gold derivations that the grammar cannot reproduce. -/
  unparseable : Nat
  goldDeps : Nat
  parserDeps : Nat
  correctLabeled : Nat
  correctUnlabeled : Nat
  goldPairs : Nat
  parserPairs : Nat
  tokens : Nat
  correctTokens : Nat
  deriving DecidableEq, Repr

namespace Statistics

def zero : Statistics := ⟨0, 0, 0, 0, 0, 0, 0, 0, 0, 0, 0, 0, 0, 0⟩

def counters (s : Statistics) : List Nat :=
  [s.sentences, s.parsed, s.coarseFailures, s.fineFailures, s.abandoned, s.unparseable,
    s.goldDeps, s.parserDeps, s.correctLabeled, s.correctUnlabeled, s.goldPairs, s.parserPairs,
    s.tokens, s.correctTokens]

def add (s t : Statistics) : Statistics where
  sentences := s.sentences + t.sentences
  parsed := s.parsed + t.parsed
  coarseFailures := s.coarseFailures + t.coarseFailures
  fineFailures := s.fineFailures + t.fineFailures
  abandoned := s.abandoned + t.abandoned
  unparseable := s.unparseable + t.unparseable
  goldDeps := s.goldDeps + t.goldDeps
  parserDeps := s.parserDeps + t.parserDeps
  correctLabeled := s.correctLabeled + t.correctLabeled
  correctUnlabeled := s.correctUnlabeled + t.correctUnlabeled
  goldPairs := s.goldPairs + t.goldPairs
  parserPairs := s.parserPairs + t.parserPairs
  tokens := s.tokens + t.tokens
  correctTokens := s.correctTokens + t.correctTokens

/-- What counters of 64 bits show of the counts. Counts are only added up, so that it does not matter when
they wrap around. -/
def inWords (s : Statistics) : Statistics :=
  let word (n : Nat) : Nat := n % Nat.pow 2 64
  ⟨word s.sentences, word s.parsed, word s.coarseFailures, word s.fineFailures, word s.abandoned,
    word s.unparseable, word s.goldDeps, word s.parserDeps, word s.correctLabeled,
    word s.correctUnlabeled, word s.goldPairs, word s.parserPairs, word s.tokens,
    word s.correctTokens⟩

theorem inWords_add (s t : Statistics) : (s.inWords.add t.inWords).inWords = (s.add t).inWords := by
  simp [inWords, add]

def ofOutcome : Except ParseFailure Derivation → Statistics
  | .ok _ => { zero with sentences := 1, parsed := 1 }
  | .error .coarse => { zero with sentences := 1, coarseFailures := 1 }
  | .error .fine => { zero with sentences := 1, fineFailures := 1 }
  | .error .abandoned => { zero with sentences := 1, abandoned := 1 }

def correctTags (predicted expected : List Supertag) : Nat :=
  ((predicted.zip expected).filter fun (p, e) => p != .failure && p == e).length

/-- One sentence of `length` words. Without a derivation it has no dependencies of its own, but those
of its gold derivation count. -/
def ofSentence (g : Grammar) (length : Nat) (outcome : Except ParseFailure Derivation)
    (gold : Option Derivation) : Statistics :=
  let parsed := outcome.toOption
  let ours := parsed.elim .empty g.dependencies
  let counted := { ofOutcome outcome with
    parserDeps := ours.size, parserPairs := ours.pairs.length }
  match gold with
  | none => counted
  | some gold =>
    let theirs := g.dependencies gold
    let expected := supertags (some gold) length
    { counted with
      goldDeps := theirs.size
      goldPairs := theirs.pairs.length
      correctLabeled := ours.labeledMatches theirs
      correctUnlabeled := ours.unlabeledMatches theirs
      tokens := expected.length
      correctTokens := correctTags (supertags parsed length) expected }

/-- A sentence whose gold derivation the grammar cannot reproduce. -/
def ofUnparseable : Statistics := { zero with sentences := 1, unparseable := 1 }

section Rates

variable {α : Type} [Scalar α]

def ratio (num den : Nat) : α :=
  if den = 0 then Scalar.zero else Scalar.ofNat num / Scalar.ofNat den

/-- The harmonic mean of precision and recall. -/
def harmonic (p r : α) : α :=
  let sum := p + r
  if Scalar.le sum Scalar.zero && Scalar.le Scalar.zero sum then Scalar.zero
  else Scalar.ofNat 2 * p * r / sum

variable (s : Statistics)

def coverage : α := ratio s.parsed s.sentences

def labeledPrecision : α := ratio s.correctLabeled s.parserDeps

def labeledRecall : α := ratio s.correctLabeled s.goldDeps

def labeledF : α := harmonic s.labeledPrecision s.labeledRecall

def unlabeledF : α :=
  harmonic (ratio s.correctUnlabeled s.parserPairs) (ratio s.correctUnlabeled s.goldPairs)

def tagAccuracy : α := ratio s.correctTokens s.tokens

end Rates

def percent (x : Double) : String := String.ofList (Written.rounded (Scalar.ofNat 100 * x)) ++ "%"

def text (s : Statistics) : String :=
  "\n".intercalate [
    s!"coverage: {percent s.coverage} ({s.parsed} of {s.sentences})",
    s!"failures: {s.coarseFailures} coarse, {s.fineFailures} fine, {s.abandoned} abandoned, " ++
      s!"{s.unparseable} unparseable",
    s!"labeled: P {percent s.labeledPrecision} R {percent s.labeledRecall} " ++
      s!"F {percent s.labeledF} ({s.correctLabeled} correct, {s.parserDeps} parser, " ++
      s!"{s.goldDeps} gold)",
    s!"unlabeled: F {percent s.unlabeledF}",
    s!"lexical categories: {percent s.tagAccuracy} ({s.correctTokens} of {s.tokens})"]

end Statistics

end Categorial
