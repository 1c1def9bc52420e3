import Categorial.Grammar.Basic
import Categorial.Decimal.Written
import Categorial.Scalar
import Categorial.Text.Lines
set_option autoImplicit false

namespace Categorial

structure Tag (α : Type) where
  cat : CatId
  score : α
  deriving Repr

structure Supertags (α : Type) where
  words : List (List (Tag α))
  deriving Repr

namespace Supertags

variable {α : Type} [Scalar α]

def precedes (a b : Tag α) : Bool := Scalar.compare b.score a.score != .gt

def sortTags (tags : List (Tag α)) : List (Tag α) := tags.mergeSort precedes

def ofWords (words : List (List (Tag α))) : Supertags α := ⟨words.map sortTags⟩

def empty : Supertags α := ⟨[]⟩

def length (t : Supertags α) : Nat := t.words.length

def all (t : Supertags α) (word : Nat) : List (Tag α) := t.words[word]?.getD []

def best? (t : Supertags α) (word : Nat) : Option (Tag α) := (t.all word).head?

def within (t : Supertags α) (word : Nat) (beta : α) : List (Tag α) :=
  let cutoff := (t.best? word).elim Scalar.top fun b => b.score * beta
  (t.all word).takeWhile fun tag => Scalar.le cutoff tag.score

/-- Adds a tag to a word's list; a category that is there keeps the higher score. -/
def addTag (tags : List (Tag α)) (tag : Tag α) : List (Tag α) :=
  match tags with
  | [] => [tag]
  | t :: rest =>
    if t.cat = tag.cat then ⟨t.cat, Scalar.max t.score tag.score⟩ :: rest
    else t :: addTag rest tag

def mergeWords : List (List (Tag α)) → List (List (Tag α)) → List (List (Tag α))
  | ours, [] => ours
  | [], extra :: theirs => sortTags (extra.foldl addTag []) :: mergeWords [] theirs
  | tags :: ours, extra :: theirs =>
    sortTags (extra.foldl addTag tags) :: mergeWords ours theirs

def merge (t other : Supertags α) : Supertags α := ⟨mergeWords t.words other.words⟩

/-- Tags given by the texts of their categories, all of which the grammar has to know. -/
def ofTexts (g : Grammar) (words : List (List (String × α))) : Except Error (Supertags α) := do
  let words ← words.mapM fun tags => tags.mapM fun (c, score) => do
    let cat ← g.requireCat c
    pure (⟨cat, score⟩ : Tag α)
  pure (ofWords words)

def ofGold (g : Grammar) (s : Sentence) : Except Error (Supertags α) := do
  let words ← s.tokens.toList.mapM fun t => do
    let gold ← t.gold.elim (.error (.invalidArgument (.noGold t.word))) .ok
    let cat ← g.requireCat gold
    pure [(⟨cat, Scalar.one⟩ : Tag α)]
  pure (ofWords words)

variable [Written α]

/-- Category and score in turn. Every score has to be a number; categories that the grammar does not
know are left out. -/
def readPairs (g : Grammar) (line : Nat) : List (List Char) → Except BadContent (List (Tag α))
  | c :: score :: rest => do
    let x ← (Written.read score).mapError (.tagScore line (String.ofList score))
    let tags ← readPairs g line rest
    pure (match g.catId? (String.ofList c) with
      | some cat => ⟨cat, x⟩ :: tags
      | none => tags)
  | _ => .ok []

def readLine (g : Grammar) (line : Nat) (s : List Char) :
    Except BadContent (Option (Token × List (Tag α))) :=
  match Text.fields s with
  | [] => .ok none
  | word :: pos :: pairs => do
    if pairs.length % 2 ≠ 0 then throw (.tagLine line)
    let tags ← readPairs g line pairs
    pure (some (⟨String.ofList word, String.ofList pos, none⟩, tags))
  | _ => .error (.tagLine line)

def sentenceOf (lines : List (Token × List (Tag α))) : Sentence × Supertags α :=
  let lines := lines.reverse
  (⟨(lines.map Prod.fst).toArray⟩, ofWords (lines.map Prod.snd))

def readFrom (g : Grammar) (line : Nat) (current : List (Token × List (Tag α))) :
    List Text.Line → Except Error (List (Sentence × Supertags α))
  | [] => .ok (if current.isEmpty then [] else [sentenceOf current])
  | none :: _ => .error .unreadable
  | some s :: rest => do
    match ← (readLine g line s).mapError (.badContent "<multitags>") with
    | some entry => readFrom g (line + 1) (entry :: current) rest
    | none => do
      let sentences ← readFrom g (line + 1) [] rest
      pure (if current.isEmpty then sentences else sentenceOf current :: sentences)

/-- One word per line with its tag and any number of categories with scores; blank lines between
sentences. -/
def read (g : Grammar) (lines : List Text.Line) : Except Error (List (Sentence × Supertags α)) :=
  readFrom g 1 [] lines

end Supertags

end Categorial
