set_option autoImplicit false

namespace Categorial

structure Token where
  word : String
  pos : String
  /-- The lexical category that a treebank gives, as it is written there. -/
  gold : Option String
  deriving DecidableEq, Repr

structure Sentence where
  tokens : Array Token
  deriving DecidableEq, Repr

namespace Sentence

/-- Words without tags of their own. -/
def ofWords (words : List String) : Sentence :=
  ⟨(words.map fun w => ⟨w, "UNK", none⟩).toArray⟩

def length (s : Sentence) : Nat := s.tokens.size

def token? (s : Sentence) (i : Nat) : Option Token := s.tokens[i]?

def hasGold (s : Sentence) : Bool := !s.tokens.isEmpty && s.tokens.all fun t => t.gold.isSome

def text (s : Sentence) : String := " ".intercalate (s.tokens.toList.map Token.word)

end Sentence

/-- The words from `start` up to `stop`, which is left out. -/
structure Span where
  start : Nat
  stop : Nat
  deriving DecidableEq, Repr

namespace Span

def length (s : Span) : Nat := s.stop - s.start

/-- The length as a word of 64 bits, which wraps around if the span stops before it starts. -/
def lengthWord (s : Span) : UInt64 := UInt64.ofNat s.stop - UInt64.ofNat s.start

def word (i : Nat) : Span := ⟨i, i + 1⟩

def join (s t : Span) : Span := ⟨s.start, t.stop⟩

def text (s : Span) : String := s!"{s.start}..{s.stop}"

end Span

end Categorial
