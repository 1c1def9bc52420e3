import Categorial.Model.Basic
import Categorial.Symbols
set_option autoImplicit false

namespace Categorial

inductive Feature where
  | lexCat (cat : CatId)
  | lexWord (cat : CatId) (word : Nat)
  | lexPos (cat : CatId) (pos : Nat)
  | bin (rule : RuleId)
  /-- A rule and the head word of its result. -/
  | binWord (rule : RuleId) (word : Nat)
  | binPos (rule : RuleId) (pos : Nat)
  | un (rule : RuleId)
  | unWord (rule : RuleId) (word : Nat)
  /-- A rule, the head word of its result and the head word of the other child. -/
  | depWord (rule : RuleId) (head sibling : Nat)
  | depPos (rule : RuleId) (head sibling : Nat)
  /-- A rule and the distance between the heads of its children. -/
  | dist (rule : RuleId) (bin : Nat)
  | root (cat : CatId)
  | rootWord (cat : CatId) (word : Nat)
  deriving DecidableEq, Hashable, Repr

namespace Feature

def text : Feature → String
  | lexCat c => s!"LexCat({c})"
  | lexWord c w => s!"LexWord({c}, {w})"
  | lexPos c p => s!"LexPos({c}, {p})"
  | bin r => s!"Bin({r})"
  | binWord r w => s!"BinWord({r}, {w})"
  | binPos r p => s!"BinPos({r}, {p})"
  | un r => s!"Un({r})"
  | unWord r w => s!"UnWord({r}, {w})"
  | depWord r h s => s!"DepWord({r}, {h}, {s})"
  | depPos r h s => s!"DepPos({r}, {h}, {s})"
  | dist r b => s!"Dist({r}, {b})"
  | root c => s!"Root({c})"
  | rootWord c w => s!"RootWord({c}, {w})"

end Feature

abbrev Finding (β : Type) := StateM Symbols β

def findSymbol (access : Access) : Option String → Finding (Option Nat)
  | none => pure none
  | some x => fun s => s.find access x

/-- The features of one step. Words that are not known give none. -/
def Expansion.features (access : Access) (ctx : Context) (rule : Rule) :
    Expansion → Finding (List Feature)
  | .lexical _ site => do
    let word ← findSymbol access (ctx.word? (some site.span.start))
    let pos ← findSymbol access (ctx.pos? (some site.span.start))
    pure (.lexCat site.cat :: (word.map (Feature.lexWord site.cat)).toList ++
      (pos.map (Feature.lexPos site.cat)).toList)
  | .unary _ parent _ => do
    let word ← findSymbol access (ctx.word? parent.refinement.head)
    pure (.un rule.id :: (word.map (Feature.unWord rule.id)).toList)
  | .binary _ parent left right => do
    let sibling := match rule.headSide? with
      | some .right => left
      | _ => right
    let head := parent.refinement.head
    let headWord ← findSymbol access (ctx.word? head)
    let headPos ← findSymbol access (ctx.pos? head)
    let siblingWord ← findSymbol access (ctx.word? sibling.refinement.head)
    let siblingPos ← findSymbol access (ctx.pos? sibling.refinement.head)
    let words := headWord.bind fun h => siblingWord.map fun s => Feature.depWord rule.id h s
    let tags := headPos.bind fun h => siblingPos.map fun s => Feature.depPos rule.id h s
    pure (.bin rule.id :: (headWord.map (Feature.binWord rule.id)).toList ++
      (headPos.map (Feature.binPos rule.id)).toList ++ words.toList ++ tags.toList ++
      [.dist rule.id (distanceBin left.refinement.head right.refinement.head)])
  | .top _ root => do
    let word ← findSymbol access (ctx.word? root.refinement.head)
    pure (.root root.cat :: (word.map (Feature.rootWord root.cat)).toList)

end Categorial
