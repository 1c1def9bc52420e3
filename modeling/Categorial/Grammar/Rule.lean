import Categorial.Error
set_option autoImplicit false

namespace Categorial

abbrev CatId := Nat

abbrev RuleId := Nat

inductive Side where
  | left
  | right
  deriving DecidableEq, Repr

def Side.name : Side → String
  | .left => "Left"
  | .right => "Right"

/-- What a rule is to the models. Binary rules differ in the side that supplies the head. -/
inductive RuleType where
  | lexical
  | leftBinary
  | rightBinary
  | unary
  | top
  deriving DecidableEq, Repr

namespace RuleType

def all : List RuleType := [lexical, leftBinary, rightBinary, unary, top]

def name : RuleType → String
  | lexical => "Lexical"
  | leftBinary => "LeftBinary"
  | rightBinary => "RightBinary"
  | unary => "Unary"
  | top => "Top"

/-- The word for it in a rule file. -/
def code : RuleType → String
  | lexical => "lex"
  | leftBinary => "left"
  | rightBinary => "right"
  | unary => "unary"
  | top => "top"

def ofCode? (s : String) : Option RuleType := all.find? fun t => t.code == s

theorem ofCode?_code (t : RuleType) : ofCode? t.code = some t := by cases t <;> decide

def isBinary : RuleType → Bool
  | leftBinary => true
  | rightBinary => true
  | _ => false

def headSide? : RuleType → Option Side
  | leftBinary => some .left
  | rightBinary => some .right
  | _ => none

def ofHeadSide : Side → RuleType
  | .left => leftBinary
  | .right => rightBinary

@[simp] theorem headSide?_ofHeadSide (s : Side) : (ofHeadSide s).headSide? = some s := by
  cases s <;> rfl

end RuleType

/-- The schema that a rule instantiates. -/
inductive Combinator where
  | lexical
  /-- `X/Y Y => X` -/
  | fwdApp
  /-- `Y X\Y => X` -/
  | bwdApp
  /-- `X/Y Y/Z => X/Z` -/
  | fwdComp
  /-- `Y\Z X\Y => X\Z` -/
  | bwdComp
  /-- `Y/Z X\Y => X/Z` -/
  | bwdCrossComp
  /-- `X => T/(T\X)` -/
  | fwdRaise
  /-- `X => T\(T/X)` -/
  | bwdRaise
  /-- `conj X => X[conj]` -/
  | conj
  /-- `X X[conj] => X` -/
  | coord
  /-- `, X => X` -/
  | leftPunct
  /-- `X , => X` -/
  | rightPunct
  /-- A listed unary rule such as `N => NP`. -/
  | typeChange
  /-- A binary rule seen in a treebank that no schema explains. -/
  | observed
  | top
  deriving DecidableEq, Repr

namespace Combinator

/-- In the order in which schemas are tried. -/
def all : List Combinator :=
  [lexical, fwdApp, bwdApp, fwdComp, bwdComp, bwdCrossComp, fwdRaise, bwdRaise, conj, coord,
    leftPunct, rightPunct, typeChange, observed, top]

def binary : List Combinator :=
  [fwdApp, bwdApp, fwdComp, bwdComp, bwdCrossComp, conj, coord, leftPunct, rightPunct]

def isBinary (c : Combinator) : Bool := binary.contains c || c == observed

def isUnary : Combinator → Bool
  | fwdRaise => true
  | bwdRaise => true
  | typeChange => true
  | _ => false

def name : Combinator → String
  | lexical => "lex"
  | fwdApp => "fa"
  | bwdApp => "ba"
  | fwdComp => "fc"
  | bwdComp => "bc"
  | bwdCrossComp => "bx"
  | fwdRaise => "ftr"
  | bwdRaise => "btr"
  | conj => "conj"
  | coord => "coord"
  | leftPunct => "lp"
  | rightPunct => "rp"
  | typeChange => "tc"
  | observed => "obs"
  | top => "top"

def rank (c : Combinator) : Nat := all.idxOf c

def ofName? (s : String) : Option Combinator := all.find? fun c => c.name == s

theorem ofName?_name (c : Combinator) : ofName? c.name = some c := by cases c <;> decide

def read (s : String) : Except Malformed Combinator :=
  (ofName? s).elim (.error (.combinator s)) .ok

end Combinator

/-- What a rule consumes. A terminal is a word that carries the result as its category. -/
inductive Production where
  | terminal
  | unary (child : CatId)
  | binary (left right : CatId)
  deriving DecidableEq, Repr

namespace Production

def left? : Production → Option CatId
  | terminal => none
  | unary c => some c
  | binary l _ => some l

def right? : Production → Option CatId
  | binary _ r => some r
  | _ => none

def size : Production → Nat
  | terminal => 0
  | unary _ => 1
  | binary _ _ => 2

/-- Only a right child without a left one has no production. -/
def ofChildren? : Option CatId → Option CatId → Option Production
  | none, none => some terminal
  | some c, none => some (unary c)
  | some l, some r => some (binary l r)
  | none, some _ => none

@[simp] theorem ofChildren?_children (p : Production) : ofChildren? p.left? p.right? = some p := by
  cases p <;> rfl

def text : Production → String
  | terminal => "Terminal"
  | unary c => s!"Unary({c})"
  | binary l r => s!"Binary({l}, {r})"

end Production

structure Rule where
  id : RuleId
  ruleType : RuleType
  combinator : Combinator
  result : CatId
  production : Production
  /-- How often the rule was seen; 0 if it was only enumerated. -/
  count : Nat
  deriving DecidableEq, Repr

def Rule.headSide? (r : Rule) : Option Side := r.ruleType.headSide?

end Categorial
