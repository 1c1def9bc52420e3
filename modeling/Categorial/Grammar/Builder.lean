import Categorial.Grammar.Basic
import Categorial.Grammar.Schema
import Categorial.Tally
import Categorial.Treebank.Basic
set_option autoImplicit false

namespace Categorial

/-- Two children, the schema and the result of a binary rule. -/
structure BinaryKey where
  left : CatId
  right : CatId
  combinator : Combinator
  result : CatId
  deriving DecidableEq, Repr

structure UnaryKey where
  child : CatId
  combinator : Combinator
  result : CatId
  deriving DecidableEq, Repr

instance : Ord BinaryKey where
  compare a b :=
    (compare a.left b.left).then <| (compare a.right b.right).then <|
      (compare a.combinator.rank b.combinator.rank).then <| compare a.result b.result

instance : Ord UnaryKey where
  compare a b :=
    (compare a.child b.child).then <|
      (compare a.combinator.rank b.combinator.rank).then <| compare a.result b.result

structure GrammarBuilder where
  categories : Array Category
  catIds : Std.HashMap String CatId
  lexical : Tally CatId
  start : Tally CatId
  /-- Binary steps of derivations; their schema is found when the grammar is built. -/
  seenBinary : Tally BinaryKey
  seenUnary : Tally UnaryKey
  /-- The unary rules of type-raising and type-changing. -/
  declared : List UnaryKey
  /-- In the order in which schemas are tried. -/
  combinators : List Combinator
  markups : List (Category × Markup)
  /-- Whether every schema is tried on every pair of categories. -/
  enumerate : Bool
  /-- Unary and binary rules that were seen less often are dropped. -/
  minCount : Nat

namespace GrammarBuilder

def noun : Category := .atom "N" none

def empty : GrammarBuilder where
  categories := #[]
  catIds := ∅
  lexical := .empty
  start := .empty
  seenBinary := .empty
  seenUnary := .empty
  declared := []
  combinators := Combinator.binary
  markups := [
    (.functor (.atom "NP" none) .forward noun, Markup.determiner),
    (.functor (.atom "NP" (some "nb")) .forward noun, Markup.determiner)]
  enumerate := true
  minCount := 0

/-- The id of a category, which is added if it is new. -/
def intern (c : Category) : StateM GrammarBuilder CatId := fun b =>
  match b.catIds[c.text]? with
  | some id => (id, b)
  | none =>
    let id := b.categories.size
    (id, { b with categories := b.categories.push c, catIds := b.catIds.insert c.text id })

def read (s : String) : Except Error Category :=
  (Category.ofString? s).mapError fun _ => .unknownCategory s

/-- What a step left behind stays, also when it fails later. -/
abbrev Building (β : Type) := ExceptT Error (StateM GrammarBuilder) β

def readCategory (s : String) : Building Category := ExceptT.mk (pure (read s))

def addCategory (s : String) : Building CatId := do
  let c ← readCategory s
  intern c

def addLexical (s : String) : Building CatId := do
  let id ← addCategory s
  modify fun b => { b with lexical := b.lexical.touch id }
  pure id

def addStart (s : String) : Building CatId := do
  let id ← addCategory s
  modify fun b => { b with start := b.start.touch id }
  pure id

def setCombinators (cs : List Combinator) (b : GrammarBuilder) : GrammarBuilder :=
  { b with combinators := Combinator.all.filter cs.contains }

def disable (c : Combinator) (b : GrammarBuilder) : GrammarBuilder :=
  { b with combinators := b.combinators.filter (· != c) }

def typeRaise (x t : String) : Building Unit := do
  let x ← readCategory x
  let t ← readCategory t
  let child ← intern x
  let forward ← intern (x.raise t .forward)
  let backward ← intern (x.raise t .backward)
  modify fun b => { b with
    declared := b.declared ++ [⟨child, .fwdRaise, forward⟩, ⟨child, .bwdRaise, backward⟩] }

def typeChange (source target : String) : Building Unit := do
  let source ← readCategory source
  let target ← readCategory target
  let child ← intern source
  let result ← intern target
  modify fun b => { b with declared := b.declared ++ [⟨child, .typeChange, result⟩] }

def setMarkup (c : String) (m : Markup) : Building Unit := do
  let c ← readCategory c
  let _ ← intern c
  modify fun b => { b with markups := b.markups.filter (fun (c', _) => c' != c) ++ [(c, m)] }

def setEnumerate (on : Bool) (b : GrammarBuilder) : GrammarBuilder := { b with enumerate := on }

def setMinCount (n : Nat) (b : GrammarBuilder) : GrammarBuilder := { b with minCount := n }

/-- How a unary step of a derivation is named by its result. -/
def unaryCombinator : Category → Combinator
  | .functor t .forward y =>
    if Category.isRaised (.functor t .forward y) then .fwdRaise else .typeChange
  | c => if c.isRaised then .bwdRaise else .typeChange

def observeNode : BankTree → Building CatId
  | .leaf c _ => do
    let id ← intern c
    modify fun b => { b with lexical := b.lexical.add id 1 }
    pure id
  | .node c _ [child] => do
    let id ← intern c
    let childId ← observeNode child
    modify fun b => { b with
      seenUnary := b.seenUnary.add ⟨childId, unaryCombinator c, id⟩ 1 }
    pure id
  | .node c _ [left, right] => do
    let id ← intern c
    let leftId ← observeNode left
    let rightId ← observeNode right
    modify fun b => { b with
      seenBinary := b.seenBinary.add ⟨leftId, rightId, .observed, id⟩ 1 }
    pure id
  | .node c _ children => do
    let _ ← intern c
    throw (.malformed (.childrenFound c.text children.length))

def observe (t : BankTree) : Building Unit := do
  let root ← observeNode t
  modify fun b => { b with start := b.start.add root 1 }

def markup (b : GrammarBuilder) (c : Category) : Markup :=
  match b.markups.find? fun (c', _) => c' == c with
  | some (_, m) => m
  | none => .default c

/-- The functor is the head unless its outermost argument supplies the head. -/
def headSide (b : GrammarBuilder) (combinator : Combinator) (left right : Category) : Side :=
  match combinator with
  | .fwdApp => if (b.markup left).headFromOuter left then .right else .left
  | .fwdComp => if (b.markup left).headFromOuter left then .right else .left
  | .bwdApp => if (b.markup right).headFromOuter right then .left else .right
  | .bwdComp => if (b.markup right).headFromOuter right then .left else .right
  | .bwdCrossComp => if (b.markup right).headFromOuter right then .left else .right
  | .conj => .right
  | .leftPunct => .right
  | _ => .left

/-- The rules of every schema on one pair of categories whose result is in the codebook. -/
def schemaKeys (b : GrammarBuilder) (left right : CatId × Category) : List BinaryKey :=
  b.combinators.filterMap fun combinator =>
    ((combinator.result? left.2 right.2).bind fun c => b.catIds[c.text]?).map fun result =>
      ⟨left.1, right.1, combinator, result⟩

def numbered (b : GrammarBuilder) : List (CatId × Category) :=
  b.categories.toList.zipIdx.map fun (c, id) => (id, c)

def enumerated (b : GrammarBuilder) : List BinaryKey :=
  if b.enumerate then
    b.numbered.flatMap fun left => b.numbered.flatMap fun right => b.schemaKeys left right
  else []

def explain (b : GrammarBuilder) (key : BinaryKey) : BinaryKey :=
  match b.categories[key.left]?, b.categories[key.right]?, b.categories[key.result]? with
  | some left, some right, some result =>
    { key with combinator :=
        (b.combinators.find? fun c => c.result? left right == some result).getD .observed }
  | _, _, _ => key

def binaryRules (b : GrammarBuilder) : Tally BinaryKey :=
  b.seenBinary.toList.foldl (fun t (key, n) => t.add (b.explain key) n)
    ⟨b.enumerated.map fun key => (key, 0)⟩

def unaryRules (b : GrammarBuilder) : Tally UnaryKey :=
  b.seenUnary.toList.foldl (fun t (key, n) => t.add key n) (b.declared.foldl Tally.clear .empty)

def ruleType (b : GrammarBuilder) (key : BinaryKey) : RuleType :=
  match b.categories[key.left]?, b.categories[key.right]? with
  | some left, some right => .ofHeadSide (b.headSide key.combinator left right)
  | _, _ => .leftBinary

/-- The rules without their numbers: lexical, binary, unary and top ones, each kind in the order of its
keys. -/
def unnumbered (b : GrammarBuilder) : List (RuleId → Rule) :=
  (b.lexical.toList.map fun (c, n) id => ⟨id, .lexical, .lexical, c, .terminal, n⟩) ++
  (b.binaryRules.toList.filter (fun (_, n) => b.minCount ≤ n)).map (fun (key, n) id =>
    ⟨id, b.ruleType key, key.combinator, key.result, .binary key.left key.right, n⟩) ++
  (b.unaryRules.toList.filter (fun (_, n) => b.minCount ≤ n)).map (fun (key, n) id =>
    ⟨id, .unary, key.combinator, key.result, .unary key.child, n⟩) ++
  b.start.toList.map fun (c, n) id => ⟨id, .top, .top, c, .unary c, n⟩

def rules (b : GrammarBuilder) : List Rule := b.unnumbered.zipIdx.map fun (make, id) => make id

def codebookMarkups (b : GrammarBuilder) : List (CatId × Markup) :=
  b.numbered.filterMap fun (id, c) =>
    (b.markups.find? fun (c', _) => c' == c).map fun (_, m) => (id, m)

def build (b : GrammarBuilder) (id : Nat) : Except Error Grammar :=
  (Grammar.ofRules id b.categories b.rules b.codebookMarkups).mapError .malformed

end GrammarBuilder

end Categorial
