import Categorial.Feature.Table
import Categorial.Text.Blank
set_option autoImplicit false

namespace Categorial

namespace FeatureTable

def symbolText (t : FeatureTable) (id : Nat) : String := (t.symbols.resolve? id).getD "?"

def describe (t : FeatureTable) (g : Grammar) : Feature → String
  | .lexCat c => s!"lexcat {g.catText c}"
  | .lexWord c w => s!"lexword {g.catText c} {t.symbolText w}"
  | .lexPos c p => s!"lexpos {g.catText c} {t.symbolText p}"
  | .bin r => s!"bin {g.describeRule r}"
  | .binWord r w => s!"binword {g.describeRule r} {t.symbolText w}"
  | .binPos r p => s!"binpos {g.describeRule r} {t.symbolText p}"
  | .un r => s!"un {g.describeRule r}"
  | .unWord r w => s!"unword {g.describeRule r} {t.symbolText w}"
  | .depWord r h s => s!"depword {g.describeRule r} {t.symbolText h} {t.symbolText s}"
  | .depPos r h s => s!"deppos {g.describeRule r} {t.symbolText h} {t.symbolText s}"
  | .dist r b => s!"dist {g.describeRule r} {b}"
  | .root c => s!"root {g.catText c}"
  | .rootWord c w => s!"rootword {g.catText c} {t.symbolText w}"

end FeatureTable

/-- What a description names, before its strings have numbers. -/
inductive Description where
  | plain (key : Feature)
  | withSymbol (make : Nat → Feature) (symbol : String)
  | withSymbols (make : Nat → Nat → Feature) (first second : String)

namespace Description

def badly (s : List Char) : Error := .malformed (.feature (String.ofList s))

/-- The rule of `combinator result child...`. Each part has to be known by itself first. -/
def readRule (g : Grammar) (s : List Char) (combinator result : String) (children : List String) :
    Except Error RuleId := do
  let combinator ← (Combinator.read combinator).mapError .malformed
  let result ← g.requireCat result
  let children ← children.mapM g.requireCat
  let production := match children with
    | [c] => Production.unary c
    | [l, r] => .binary l r
    | _ => .terminal
  (g.findRule? combinator result production).elim
    (.error (.unlicensed (.feature (String.ofList s)))) .ok

def read (g : Grammar) (s : List Char) : Except Error Description :=
  let rule := readRule g s
  match (Text.fields s).map String.ofList with
  | ["lexcat", c] => do pure (.plain (.lexCat (← g.requireCat c)))
  | ["root", c] => do pure (.plain (.root (← g.requireCat c)))
  | ["lexword", c, w] => do pure (.withSymbol (.lexWord (← g.requireCat c)) w)
  | ["lexpos", c, p] => do pure (.withSymbol (.lexPos (← g.requireCat c)) p)
  | ["rootword", c, w] => do pure (.withSymbol (.rootWord (← g.requireCat c)) w)
  | ["bin", k, x, l, r] => do pure (.plain (.bin (← rule k x [l, r])))
  | ["un", k, x, c] => do pure (.plain (.un (← rule k x [c])))
  | ["binword", k, x, l, r, w] => do pure (.withSymbol (.binWord (← rule k x [l, r])) w)
  | ["binpos", k, x, l, r, p] => do pure (.withSymbol (.binPos (← rule k x [l, r])) p)
  | ["unword", k, x, c, w] => do pure (.withSymbol (.unWord (← rule k x [c])) w)
  | ["dist", k, x, l, r, b] => do
    let rule ← rule k x [l, r]
    match Text.readId b.toList with
    | .ok b => pure (.plain (.dist rule b))
    | .error _ => throw (badly s)
  | ["depword", k, x, l, r, h, d] => do
    pure (.withSymbols (.depWord (← rule k x [l, r])) h d)
  | ["deppos", k, x, l, r, h, d] => do
    pure (.withSymbols (.depPos (← rule k x [l, r])) h d)
  | _ => .error (badly s)

def number (symbols : Symbols) : Description → Feature × Symbols
  | .plain key => (key, symbols)
  | .withSymbol make x =>
    let (id, symbols) := symbols.intern x
    (make id, symbols)
  | .withSymbols make x y =>
    let (i, symbols) := symbols.intern x
    let (j, symbols) := symbols.intern y
    (make i j, symbols)

end Description

namespace FeatureTable

def readDescription (t : FeatureTable) (g : Grammar) (s : List Char) :
    Except Error (Feature × FeatureTable) :=
  (Description.read g s).map fun d =>
    let (key, symbols) := d.number t.symbols
    (key, { t with symbols })

end FeatureTable

end Categorial
