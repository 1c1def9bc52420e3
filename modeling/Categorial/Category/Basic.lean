set_option autoImplicit false

namespace Categorial

/-- The side on which a functor looks for its argument. -/
inductive Slash where
  | forward
  | backward
  deriving DecidableEq, Repr

def Slash.char : Slash → Char
  | .forward => '/'
  | .backward => '\\'

def Slash.opposite : Slash → Slash
  | .forward => .backward
  | .backward => .forward

inductive Category where
  | atom (base : String) (feature : Option String)
  | functor (result : Category) (slash : Slash) (arg : Category)
  /-- A conjunct with its conjunction. -/
  | conj (inner : Category)
  deriving DecidableEq, Repr

namespace Category

def isAtom : Category → Bool
  | atom _ _ => true
  | _ => false

def isFunctor : Category → Bool
  | functor _ _ _ => true
  | _ => false

def isConj : Category → Bool
  | conj _ => true
  | _ => false

def base? : Category → Option String
  | atom b _ => some b
  | _ => none

def split? : Category → Option (Category × Slash × Category)
  | functor x s y => some (x, s, y)
  | _ => none

/-- Bases of the atoms that their neighbours may absorb. -/
def punctuation : List String := [",", ".", ";", ":", "LRB", "RRB", "LQU", "RQU"]

def isPunct : Category → Bool
  | atom b none => punctuation.contains b
  | _ => false

def isConjunction : Category → Bool
  | atom b none => b == "conj" || b == "," || b == ";"
  | _ => false

def arity : Category → Nat
  | functor x _ _ => 1 + x.arity
  | _ => 0

/-- Slots count from the innermost argument, indices from the outermost. -/
def slotOf (c : Category) (index : Nat) : Nat := c.arity - index

def isModifier : Category → Bool
  | functor x _ y => x == y
  | _ => false

def isRaised : Category → Bool
  | functor t s (functor u r _) => s != r && t == u
  | _ => false

def raise (x t : Category) (slash : Slash) : Category :=
  functor t slash (functor t slash.opposite x)

theorem isRaised_raise (x t : Category) (slash : Slash) : (raise x t slash).isRaised = true := by
  cases slash <;> simp [raise, isRaised, Slash.opposite]

/-- The feature that the featureless S atoms of a pattern have met, if any. -/
abbrev Binding := Option String

def Binding.bind (b : Binding) (feature : String) : Option Binding :=
  match b with
  | none => some (some feature)
  | some f => if f = feature then some (some f) else none

/-- Matches a pattern against a category from left to right, collecting the binding. A feature on one
side alone is no obstacle. -/
def unify (b : Binding) : Category → Category → Option Binding
  | atom base f, atom base' f' =>
    if base ≠ base' then none
    else match f, f' with
      | some x, some y => if x = y then some b else none
      | none, some y => if base = "S" then b.bind y else some b
      | _, none => some b
  | functor x s y, functor x' s' y' =>
    if s = s' then (unify b x x').bind fun b => unify b y y' else none
  | conj x, conj x' => unify b x x'
  | _, _ => none

def matches? (pattern actual : Category) : Option Binding := unify none pattern actual

def substitute (b : Binding) : Category → Category
  | atom base feature =>
    match feature, b with
    | none, some f => if base = "S" then atom base (some f) else atom base none
    | feature, _ => atom base feature
  | functor x s y => functor (substitute b x) s (substitute b y)
  | conj x => conj (substitute b x)

def conjMark : List Char := "[conj]".toList

def featureChars : Option String → List Char
  | none => []
  | some f => '[' :: f.toList ++ [']']

def chars : Category → List Char
  | atom base feature => base.toList ++ featureChars feature
  | functor x s y => nested x x.chars ++ s.char :: nested y y.chars
  | conj x => nested x x.chars ++ conjMark
where
  nested (c : Category) (text : List Char) : List Char :=
    if c.isFunctor then '(' :: text ++ [')'] else text

def text (c : Category) : String := String.ofList c.chars

def outline : Category → String
  | atom base none => s!"(A {base})"
  | atom base (some feature) => s!"(A {base} {feature})"
  | functor x s y => s!"(F {s.char} {x.outline} {y.outline})"
  | conj x => s!"(C {x.outline})"

def flipped : Category → Category
  | atom base feature => atom base feature
  | functor x s y => functor x.flipped s.opposite y.flipped
  | conj x => conj x.flipped

end Category

end Categorial
