import Categorial.Category.Basic
import Categorial.Sentence
import Categorial.Text.Numeral
set_option autoImplicit false

namespace Categorial

inductive BankTree where
  | leaf (cat : Category) (token : Token)
  | node (cat : Category) (head : Nat) (children : List BankTree)
  deriving Repr

namespace BankTree

theorem induction {P : BankTree → Prop} (leaf : ∀ cat token, P (leaf cat token))
    (node : ∀ cat head children, (∀ c ∈ children, P c) → P (node cat head children)) : ∀ t, P t
  | .leaf cat token => leaf cat token
  | .node cat head children => node cat head children fun c _ => induction leaf node c

def cat : BankTree → Category
  | leaf c _ => c
  | node c _ _ => c

mutual

def tokens : BankTree → List Token
  | leaf _ t => [t]
  | node _ _ children => tokensOf children

def tokensOf : List BankTree → List Token
  | [] => []
  | t :: ts => t.tokens ++ tokensOf ts

end

def sentence (t : BankTree) : Sentence := ⟨t.tokens.toArray⟩

mutual

/-- A short form: `(L cat word pos gold)` for a leaf, `(T cat head child ...)` for a branch. -/
def outline : BankTree → String
  | leaf c t => s!"(L {c.text} {t.word} {t.pos} {t.gold.getD c.text})"
  | node c head children => s!"(T {c.text} {head}" ++ String.join (outlines children) ++ ")"

def outlines : List BankTree → List String
  | [] => []
  | t :: ts => (" " ++ t.outline) :: outlines ts

end

mutual

/-- The line of a treebank file. The second tag and the last field of a leaf are not kept by a tree and
repeat the first tag and the category. -/
def line : BankTree → List Char
  | leaf c t =>
    let gold := (t.gold.getD c.text).toList
    "(<L ".toList ++ gold ++ ' ' :: t.pos.toList ++ ' ' :: t.pos.toList ++ ' ' :: t.word.toList ++
      ' ' :: gold ++ ">)".toList
  | node c head children =>
    "(<T ".toList ++ c.chars ++ ' ' :: Text.natDigits head ++ ' ' :: Text.natDigits children.length ++
      '>' :: linesOf children ++ " )".toList

def linesOf : List BankTree → List Char
  | [] => []
  | t :: ts => ' ' :: t.line ++ linesOf ts

end

end BankTree

end Categorial
