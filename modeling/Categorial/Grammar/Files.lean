import Categorial.Grammar.Basic
import Categorial.Text.Lines
set_option autoImplicit false

/-!
The four files of a codebook: categories, rules, start categories and markup. Lines are records with
tabs between their fields. Ids come back as they were saved, and what follows from the rules, such as
which categories are lexical, is worked out again and not read.
-/

namespace Categorial

structure CodebookFiles (β : Type) where
  categories : β
  rules : β
  start : β
  markedup : β

namespace CodebookFiles

def map {β γ : Type} (f : β → γ) (files : CodebookFiles β) : CodebookFiles γ :=
  ⟨f files.categories, f files.rules, f files.start, f files.markedup⟩

end CodebookFiles

namespace Grammar

def tab : String := "\t"

def record (fields : List String) : String := tab.intercalate fields ++ "\n"

def optional (n : Option Nat) : String := n.elim "-" toString

def categoryRecord (g : Grammar) (id : CatId) (c : Category) : String :=
  record [toString id, c.text, if g.isLexical id then "1" else "0"]

def ruleRecord (r : Rule) : String :=
  record [toString r.id, r.ruleType.code, r.combinator.name, toString r.result,
    optional r.production.left?, optional r.production.right?, toString r.count]

def silentText (silent : List Nat) : String :=
  if silent.isEmpty then "-" else ",".intercalate (silent.map toString)

def markupRecord (g : Grammar) (id : CatId) (m : Markup) : String :=
  record [g.catText id, optional m.headSlot, silentText m.silent]

def save (g : Grammar) : CodebookFiles String where
  categories := String.join (g.categories.toList.zipIdx.map fun (c, id) => g.categoryRecord id c)
  rules := String.join (g.rules.toList.map ruleRecord)
  start := String.join (g.start.map fun c => g.catText c ++ "\n")
  markedup := String.join (g.markups.map fun (id, m) => g.markupRecord id m)

/-- The lines that are not blank; a line that is no text makes the file unreadable. -/
def filledLines : List Text.Line → Except Error (List (List Char))
  | [] => .ok []
  | none :: _ => .error .unreadable
  | some line :: rest => do
    let rest ← filledLines rest
    pure (if (Text.trim line).isEmpty then rest else line :: rest)

def requireFile (file : Option (List Text.Line)) : Except Error (List (List Char)) :=
  file.elim (.error .unreadable) filledLines

def optionalFile (file : Option (List Text.Line)) : Except Error (List (List Char)) :=
  file.elim (.ok []) filledLines

/-- A category record: its position, the category, and a flag that is not read. -/
def readCategoryLine (path : String) (position : Nat) (line : List Char) :
    Except Error Category :=
  match Text.splitOn '\t' line with
  | [id, c, _] =>
    if (Text.readSize id).toOption = some position then
      (Category.read c).mapError fun _ => .unknownCategory (String.ofList c)
    else .error (.malformed (.categoryLine path (position + 1)))
  | _ => .error (.malformed (.categoryLine path (position + 1)))

def readNumber (s : List Char) : Except RuleLineError Nat :=
  (Text.readId s).mapError (.number (String.ofList s))

def readOptional (s : List Char) : Except RuleLineError (Option Nat) :=
  if s = ['-'] then .ok none else (readNumber s).map some

/-- Of several faults the first in this order is reported: type, combinator, children, id, result,
count. -/
def readRuleLine (line : List Char) : Except RuleLineError Rule :=
  match Text.splitOn '\t' line with
  | [id, kind, combinator, result, left, right, count] => do
    let kind := String.ofList kind
    let ruleType ← (RuleType.ofCode? kind).elim (.error (.ruleType kind)) .ok
    let name := String.ofList combinator
    let combinator ← (Combinator.ofName? name).elim (.error (.combinator name)) .ok
    let left ← readOptional left
    let right ← readOptional right
    let production ← (Production.ofChildren? left right).elim (.error .rightWithoutLeft) .ok
    let id ← readNumber id
    let result ← readNumber result
    let count ← readNumber count
    pure ⟨id, ruleType, combinator, result, production, count⟩
  | fields => .error (.fieldCount fields.length)

def readSlots : List (List Char) → Option (List Nat)
  | [] => some []
  | s :: rest => do
    let n ← (Text.readSize s).toOption
    let ns ← readSlots rest
    pure (n :: ns)

def readMarkup (head silent : List Char) : Except Malformed Markup :=
  let headSlot : Option (Option Nat) :=
    if head = ['-'] then some none else (Text.readSize head).toOption.map some
  let slots : Option (List Nat) :=
    if silent = ['-'] then some [] else readSlots (Text.splitOn ',' silent)
  match headSlot, slots with
  | some headSlot, some silent => .ok ⟨headSlot, silent⟩
  | _, _ => .error (.markup (String.ofList head) (String.ofList silent))

def putMarkup (id : CatId) (m : Markup) : List (CatId × Markup) → List (CatId × Markup)
  | [] => [(id, m)]
  | (id', m') :: rest =>
    if id < id' then (id, m) :: (id', m') :: rest
    else if id = id' then (id, m) :: rest
    else (id', m') :: putMarkup id m rest

def positions (categories : List Category) : Std.HashMap String CatId :=
  categories.zipIdx.foldl (fun known (c, id) => known.insert c.text id) ∅

def readMarkupLine (ids : Std.HashMap String CatId) (line : List Char) :
    Except Error (CatId × Markup) :=
  match Text.splitOn '\t' line with
  | [c, head, silent] =>
    match (Category.read c).toOption.bind fun c => ids[c.text]? with
    | none => .error (.unknownCategory (String.ofList c))
    | some id => do
      let m ← (readMarkup head silent).mapError .malformed
      pure (id, m)
  | _ => .error (.malformed (.markupLine (String.ofList line)))

def checkStartLine (g : Grammar) (line : List Char) : Except Error Unit := do
  let text := String.ofList (Text.trim line)
  let c ← g.requireCat text
  if g.isStart c then pure () else throw (.malformed (.startWithoutRule text))

/-- Loads the codebook kept in the directory `dir` as the grammar with instance number `id`. Categories
and rules have to be there; start categories and markup may be missing. -/
def load (id : Nat) (dir : String) (files : CodebookFiles (Option (List Text.Line))) :
    Except Error Grammar := do
  let lines ← requireFile files.categories
  let categories ← lines.zipIdx.mapM fun (line, i) =>
    readCategoryLine s!"{dir}/categories" i line
  let lines ← requireFile files.rules
  let rules ← lines.zipIdx.mapM fun (line, i) =>
    (readRuleLine line).mapError fun e => .malformed (.ruleLine s!"{dir}/rules" (i + 1) e)
  let lines ← optionalFile files.markedup
  let ids := positions categories
  let marked ← lines.mapM (readMarkupLine ids)
  let markups := marked.foldl (fun ms (id, m) => putMarkup id m ms) []
  let g ← (ofRules id categories.toArray rules markups).mapError .malformed
  let lines ← optionalFile files.start
  lines.forM g.checkStartLine
  pure g

end Grammar

end Categorial
