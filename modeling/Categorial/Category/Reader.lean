import Categorial.Category.Basic
import Categorial.Text.Blank
import Categorial.Error
set_option autoImplicit false

/-!
Reading a category: primaries joined by slashes, grouped to the left. A primary is a category in
parentheses or an atom, followed by any number of conjunct marks. A first bracket that reads `[conj]`
is such a mark and no feature.
-/

namespace Categorial

namespace Category

def isBaseChar (c : Char) : Bool := c.isAlpha

def isBaseSign (c : Char) : Bool := c == ',' || c == '.' || c == ';' || c == ':'

def isFeatureChar (c : Char) : Bool := c.isAlphanum

def readBase : List Char → Except Malformed (String × List Char)
  | [] => .error (.noAtom "")
  | c :: s =>
    if isBaseChar c then
      .ok (String.ofList (c :: s.takeWhile isBaseChar), s.dropWhile isBaseChar)
    else if isBaseSign c then .ok (String.ofList [c], s)
    else .error (.noAtom (String.ofList (c :: s)))

/-- A feature that is not closed is left alone. -/
def readFeature (s : List Char) : Option String × List Char :=
  match s with
  | '[' :: r =>
    match r.takeWhile isFeatureChar, r.dropWhile isFeatureChar with
    | f :: fs, ']' :: rest => (some (String.ofList (f :: fs)), rest)
    | _, _ => (none, s)
  | _ => (none, s)

def readMarks (c : Category) : List Char → Category × List Char
  | '[' :: 'c' :: 'o' :: 'n' :: 'j' :: ']' :: s => readMarks (conj c) s
  | s => (c, s)

def atomOf (base : String) (feature : Option String) : Category :=
  if feature = some "conj" then conj (atom base none) else atom base feature

def readAtom (s : List Char) : Except Malformed (Category × List Char) :=
  (readBase s).map fun (base, s) =>
    let (feature, s) := readFeature s
    readMarks (atomOf base feature) s

def expect (wanted : Char) : List Char → Except Malformed (List Char)
  | [] => .error (.noChar wanted "")
  | c :: s => if c = wanted then .ok s else .error (.noChar wanted (String.ofList (c :: s)))

def slash? : Char → Option Slash
  | '/' => some .forward
  | '\\' => some .backward
  | _ => none

mutual

/-- `fuel` bounds the steps; one more than the length of the text is enough. -/
def readPrimary : Nat → List Char → Except Malformed (Category × List Char)
  | fuel + 1, '(' :: s => do
    let (first, s) ← readPrimary fuel s
    let (c, s) ← readArguments fuel first s
    let s ← expect ')' s
    pure (readMarks c s)
  | _, s => readAtom s

def readArguments : Nat → Category → List Char → Except Malformed (Category × List Char)
  | fuel + 1, c, ch :: s =>
    match slash? ch with
    | some slash => do
      let (arg, s) ← readPrimary fuel s
      readArguments fuel (functor c slash arg) s
    | none => .ok (c, ch :: s)
  | _, c, s => .ok (c, s)

end

def readFirst (s : List Char) : Except Malformed (Category × List Char) := do
  let fuel := s.length + 1
  let (first, s) ← readPrimary fuel s
  readArguments fuel first s

/-- The whole text, white space around it aside. -/
def read (s : List Char) : Except Malformed Category := do
  let (c, rest) ← readFirst (Text.trim s)
  if rest.isEmpty then pure c else throw (.afterCategory c.text (String.ofList rest))

def ofString? (s : String) : Except Malformed Category := read s.toList

end Category

end Categorial
