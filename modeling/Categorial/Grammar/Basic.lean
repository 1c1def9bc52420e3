import Std.Data.HashMap
import Categorial.Category.Reader
import Categorial.Grammar.Markup
import Categorial.Grammar.Rule
import Categorial.Sentence
set_option autoImplicit false

/-!
A grammar is a codebook: numbered categories, numbered rules over them, and indexes for the questions
that charts ask. The indexes are filled rule by rule, each rule being checked on the way.
-/

namespace Categorial

structure Grammar where
  /-- Tells grammars apart: ids of one mean nothing in another. -/
  id : Nat
  categories : Array Category
  catIds : Std.HashMap String CatId
  /-- Whether words may have the category, for each of them. -/
  lexicalFlags : Array Bool
  rules : Array Rule
  binary : Std.HashMap (CatId × CatId) (List RuleId)
  byLeft : Std.HashMap CatId (List RuleId)
  byRight : Std.HashMap CatId (List RuleId)
  unary : Std.HashMap CatId (List RuleId)
  lexical : Std.HashMap CatId RuleId
  top : Std.HashMap CatId RuleId
  start : List CatId
  /-- In the order of the categories. -/
  markups : List (CatId × Markup)

namespace Grammar

def check (g : Grammar) (expected : Nat) : Except Error Unit :=
  if expected = g.id then .ok () else .error (.grammarMismatch expected g.id)

def size (g : Grammar) : Nat := g.categories.size

def category? (g : Grammar) (id : CatId) : Option Category := g.categories[id]?

/-- A category by its text; an id out of range has none. -/
def catText (g : Grammar) (id : CatId) : String := (g.category? id).elim "" Category.text

def arityOf (g : Grammar) (id : CatId) : Nat := (g.category? id).elim 0 Category.arity

def catIdOf? (g : Grammar) (c : Category) : Option CatId := g.catIds[c.text]?

/-- Any spelling of a category finds its id; the canonical one without being read. -/
def catId? (g : Grammar) (s : String) : Option CatId :=
  match g.catIds[s]? with
  | some id => some id
  | none => (Category.ofString? s).toOption.bind g.catIdOf?

def requireCat (g : Grammar) (s : String) : Except Error CatId :=
  (g.catId? s).elim (.error (.unknownCategory s)) .ok

def rule? (g : Grammar) (id : RuleId) : Option Rule := g.rules[id]?

def binaryRules (g : Grammar) (left right : CatId) : List RuleId := g.binary.getD (left, right) []

/-- The binary rules with the category as their child on one side. -/
def rulesFor (g : Grammar) (c : CatId) : Side → List RuleId
  | .left => g.byLeft.getD c []
  | .right => g.byRight.getD c []

def unaryRules (g : Grammar) (child : CatId) : List RuleId := g.unary.getD child []

def lexicalRule? (g : Grammar) (c : CatId) : Option RuleId := g.lexical[c]?

def topRule? (g : Grammar) (c : CatId) : Option RuleId := g.top[c]?

def isLexical (g : Grammar) (c : CatId) : Bool := g.lexicalFlags.getD c false

def isStart (g : Grammar) (c : CatId) : Bool := (g.topRule? c).isSome

def combine? (g : Grammar) (rule : RuleId) (left right : CatId) : Option CatId :=
  match g.rule? rule with
  | some r => if r.production = .binary left right then some r.result else none
  | none => none

def combineUnary? (g : Grammar) (rule : RuleId) (child : CatId) : Option CatId :=
  match g.rule? rule with
  | some r => if r.production = .unary child then some r.result else none
  | none => none

def isRule (g : Grammar) (combinator : Combinator) (result : CatId) (id : RuleId) : Bool :=
  match g.rule? id with
  | some r => r.combinator == combinator && r.result == result
  | none => false

def findRule? (g : Grammar) (combinator : Combinator) (result : CatId) :
    Production → Option RuleId
  | .terminal => if combinator = .lexical then g.lexicalRule? result else none
  | .unary c =>
    if combinator = .top then (if c = result then g.topRule? c else none)
    else (g.unaryRules c).find? (g.isRule combinator result)
  | .binary l r => (g.binaryRules l r).find? (g.isRule combinator result)

def licenses (g : Grammar) (s : Sentence) : Bool :=
  s.tokens.all fun t => match t.gold with
    | some gold => ((g.catId? gold).bind g.lexicalRule?).isSome
    | none => true

def markup (g : Grammar) (c : CatId) : Markup :=
  match g.markups.find? fun (id, _) => id == c with
  | some (_, m) => m
  | none => (g.category? c).elim ⟨none, []⟩ Markup.default

def displayRule (g : Grammar) (r : Rule) : String :=
  let children := match r.production with
    | .terminal => "<word>"
    | .unary c => g.catText c
    | .binary l r => s!"{g.catText l} {g.catText r}"
  s!"{g.catText r.result} -> {children} ({r.combinator.name}, {r.ruleType.name}, count {r.count})"

def describeRule (g : Grammar) (id : RuleId) : String :=
  match g.rule? id with
  | none => s!"? #{id}"
  | some r =>
    let made := s!"{r.combinator.name} {g.catText r.result}"
    match r.production with
    | .terminal => made
    | .unary c => s!"{made} {g.catText c}"
    | .binary l r => s!"{made} {g.catText l} {g.catText r}"

def displayLines (g : Grammar) : List String :=
  ("//** start:" ++ String.join (g.start.map fun c => " " ++ g.catText c)) ::
    g.rules.toList.map g.displayRule

def ofCategories (id : Nat) (categories : Array Category) (catIds : Std.HashMap String CatId)
    (markups : List (CatId × Markup)) : Grammar :=
  ⟨id, categories, catIds, Array.replicate categories.size false, #[], ∅, ∅, ∅, ∅, ∅, ∅, [], markups⟩

/-- The ids of the categories by their texts, which have to differ. -/
def indexCategories (next : CatId) (known : Std.HashMap String CatId) :
    List Category → Except Malformed (Std.HashMap String CatId)
  | [] => .ok known
  | c :: cs =>
    if known.contains c.text then .error (.duplicateCategory c.text)
    else indexCategories (next + 1) (known.insert c.text next) cs

def inRange (g : Grammar) (c : CatId) : Except Malformed Unit :=
  if c < g.size then .ok () else .error (.categoryRange c)

def push {κ : Type} [BEq κ] [Hashable κ] (index : Std.HashMap κ (List RuleId)) (key : κ)
    (id : RuleId) : Std.HashMap κ (List RuleId) :=
  index.insert key (index.getD key [] ++ [id])

/-- Adds a rule, which has to be numbered by its position, to have its categories in the codebook and
to consume what its type says. -/
def addRule (g : Grammar) (r : Rule) : Except Malformed Grammar := do
  if r.id ≠ g.rules.size then throw (.rulePosition r.id g.rules.size)
  g.inRange r.result
  let rules := g.rules.push r
  match r.ruleType, r.production with
  | .lexical, .terminal =>
    pure { g with
      rules
      lexical := g.lexical.insert r.result r.id
      lexicalFlags := g.lexicalFlags.setIfInBounds r.result true }
  | .top, .unary c => do
    g.inRange c
    pure { g with rules, top := g.top.insert c r.id, start := g.start ++ [c] }
  | .unary, .unary c => do
    g.inRange c
    pure { g with rules, unary := push g.unary c r.id }
  | t, .binary left right =>
    if t.isBinary then do
      g.inRange left
      g.inRange right
      pure { g with
        rules
        binary := push g.binary (left, right) r.id
        byLeft := push g.byLeft left r.id
        byRight := push g.byRight right r.id }
    else throw (.ruleShape r.id t.name r.production.text)
  | t, p => throw (.ruleShape r.id t.name p.text)

/-- The codebook of these categories and rules. It needs a start category. -/
def ofRules (id : Nat) (categories : Array Category) (rules : List Rule)
    (markups : List (CatId × Markup)) : Except Malformed Grammar := do
  let catIds ← indexCategories 0 ∅ categories.toList
  let g ← rules.foldlM addRule (ofCategories id categories catIds markups)
  if g.start.isEmpty then throw .noStart
  pure g

end Grammar

end Categorial
