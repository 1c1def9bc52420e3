import Categorial.Derivation.Basic
import Categorial.Grammar.Basic
set_option autoImplicit false

/-!
Dependencies between the words of a derivation. A lexical functor owns one slot for each of its
arguments, apart from those that its markup silences. Combination hands the owners on: where an argument
is filled, every owner of it depends on every head word of the filler.
-/

namespace Categorial

/-- The word at `target` takes the head of its argument in `slot` from the word at `source`. -/
structure Dependency where
  target : Nat
  source : Nat
  cat : CatId
  slot : Nat
  deriving DecidableEq, Repr

namespace Dependency

instance : Ord Dependency where
  compare a b :=
    (compare a.target b.target).then <| (compare a.source b.source).then <|
      (compare a.cat b.cat).then <| compare a.slot b.slot

def pair (d : Dependency) : Nat × Nat := (min d.target d.source, max d.target d.source)

end Dependency

/-- A set of dependencies, as a list in ascending order. -/
structure DependencySet where
  toList : List Dependency
  deriving DecidableEq, Repr

namespace DependencySet

def empty : DependencySet := ⟨[]⟩

def insertInto (d : Dependency) : List Dependency → List Dependency
  | [] => [d]
  | e :: rest =>
    match compare d e with
    | .lt => d :: e :: rest
    | .eq => e :: rest
    | .gt => e :: insertInto d rest

def insert (s : DependencySet) (d : Dependency) : DependencySet := ⟨insertInto d s.toList⟩

def contains (s : DependencySet) (d : Dependency) : Bool := s.toList.contains d

def size (s : DependencySet) : Nat := s.toList.length

def insertAll (s : DependencySet) (ds : List Dependency) : DependencySet := ds.foldl insert s

def pairs (s : DependencySet) : List (Nat × Nat) :=
  ((s.toList.map Dependency.pair).mergeSort fun a b =>
    ((compare a.1 b.1).then (compare a.2 b.2)) != .gt).eraseReps

def labeledMatches (s t : DependencySet) : Nat := (s.toList.filter t.contains).length

def unlabeledMatches (s t : DependencySet) : Nat :=
  let theirs := t.pairs
  (s.pairs.filter fun p => theirs.contains p).length

def render (s : DependencySet) (g : Grammar) (sentence : Sentence) : String :=
  let word (i : Nat) : String := (sentence.token? i).elim "" Token.word
  String.join (s.toList.map fun d =>
    s!"{word d.target}_{d.target} {g.catText d.cat} {d.slot} {word d.source}_{d.source}\n")

end DependencySet

/-- A slot of a lexical category that is still to be filled. -/
structure Owner where
  word : Nat
  cat : CatId
  slot : Nat
  deriving DecidableEq, Repr

inductive Head where
  | words (positions : List Nat)
  /-- Not known until the argument at this index, the outermost being 0, is filled. -/
  | argument (index : Nat)
  deriving DecidableEq, Repr

/-- The predicate that a phrase means: its head, and the owners of each argument that it still takes,
outermost first. -/
structure Predicate where
  head : Head
  arguments : List (List Owner)
  /-- Made by type-raising: when it combines, the other side takes it as an argument. -/
  raised : Bool
  deriving DecidableEq, Repr

namespace Predicate

def vacant (arity : Nat) : List (List Owner) := List.replicate arity []

def empty (arity : Nat) : Predicate := ⟨.words [], vacant arity, false⟩

def resize (p : Predicate) (arity : Nat) : Predicate :=
  if p.arguments.length = arity then { p with raised := false }
  else
    ⟨match p.head with
      | .words w => .words w
      | .argument _ => .words [], vacant arity, false⟩

def lexical (g : Grammar) (cat : CatId) (word : Nat) : Predicate :=
  let arity := g.arityOf cat
  let markup := g.markup cat
  let owners (index : Nat) : List Owner :=
    let slot := arity - index
    if markup.isSilent slot then [] else [⟨word, cat, slot⟩]
  let head := match markup.headSlot with
    | some slot => if 1 ≤ slot ∧ slot ≤ arity then .argument (arity - slot) else .words [word]
    | none => .words [word]
  ⟨head, (List.range arity).map owners, false⟩

def unary (rule : Rule) (child : Predicate) (arity : Nat) : Predicate :=
  match rule.combinator with
  | .fwdRaise => raise child
  | .bwdRaise => raise child
  | _ => child.resize arity
where
  raise (child : Predicate) : Predicate :=
    ⟨match child.head with
      | .words w => .words w
      | .argument _ => .words [], vacant arity, true⟩

/-- What the owners of an argument depend on once the argument is filled. No word depends on itself. -/
def filled (owners : List Owner) : Head → List Dependency
  | .argument _ => []
  | .words words => owners.flatMap fun o =>
      (words.filter (· != o.word)).map fun w => ⟨o.word, w, o.cat, o.slot⟩

def merge (ours theirs : List (List Owner)) : List (List Owner) :=
  if ours.length = theirs.length then List.zipWith (· ++ ·) ours theirs else ours

def consume (functor raised : Predicate) (index : Nat) : Predicate × List Dependency :=
  let head := match functor.head with
    | .argument k =>
      if k = index then raised.head else if index < k then .argument (k - 1) else .argument k
    | .words w => .words w
  (⟨head, functor.arguments.eraseIdx index, false⟩,
    filled (functor.arguments[index]?.getD []) raised.head)

def apply (functor arg : Predicate) : Predicate × List Dependency :=
  if functor.raised then consume arg functor 0
  else
    let head := match functor.head with
      | .argument 0 => arg.head
      | .argument (k + 1) => .argument k
      | .words w => .words w
    (⟨head, merge functor.arguments.tail arg.arguments, false⟩,
      filled (functor.arguments.head?.getD []) arg.head)

def compose (primary secondary : Predicate) : Predicate × List Dependency :=
  if primary.raised then consume secondary primary 1
  else
    let head := match primary.head with
      | .argument 0 => match secondary.head with
        | .argument 0 => .argument 0
        | .argument _ => .words []
        | .words w => .words w
      | other => other
    (⟨head, secondary.arguments.head?.getD [] ::
        merge primary.arguments.tail secondary.arguments.tail, false⟩,
      filled (primary.arguments.head?.getD []) secondary.head)

def coordinate (left right : Predicate) : Predicate :=
  let head := match left.head, right.head with
    | .words a, .words b => .words (a ++ b)
    | .argument k, _ => .argument k
    | .words a, _ => .words a
  ⟨head, merge left.arguments right.arguments, false⟩

def binary (rule : Rule) (left right : Predicate) (arity : Nat) : Predicate × List Dependency :=
  match rule.combinator with
  | .fwdApp => apply left right
  | .bwdApp => apply right left
  | .fwdComp => compose left right
  | .bwdComp => compose right left
  | .bwdCrossComp => compose right left
  | .conj => (right, [])
  | .leftPunct => (right, [])
  | .rightPunct => (left, [])
  | .coord => (coordinate left right, [])
  | _ => match rule.headSide? with
    | some .right => (right.resize arity, [])
    | _ => (left.resize arity, [])

end Predicate

namespace Grammar

/-- The predicate of a derivation, and the dependencies inside it. Under a rule that does not exist
nothing is known. -/
def decode (g : Grammar) : Derivation → Predicate × List Dependency
  | .leaf step span => (.lexical g step.cat span.start, [])
  | .branch step _ [child] =>
    match g.rule? step.rule with
    | none => (.empty (g.arityOf step.cat), [])
    | some rule =>
      let (child, ds) := g.decode child
      (.unary rule child (g.arityOf step.cat), ds)
  | .branch step _ [left, right] =>
    match g.rule? step.rule with
    | none => (.empty (g.arityOf step.cat), [])
    | some rule =>
      let (left, dsLeft) := g.decode left
      let (right, dsRight) := g.decode right
      let (p, ds) := Predicate.binary rule left right (g.arityOf step.cat)
      (p, dsLeft ++ dsRight ++ ds)
  | .branch step _ _ => (.empty (g.arityOf step.cat), [])

def dependencies (g : Grammar) (t : Derivation) : DependencySet :=
  .insertAll .empty (g.decode t).2

end Grammar

end Categorial
