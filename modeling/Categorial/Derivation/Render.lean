import Categorial.Derivation.Basic
import Categorial.Grammar.Basic
set_option autoImplicit false

namespace Categorial

def Grammar.stepText (g : Grammar) (s : Step) : String :=
  let combinator := (g.rule? s.rule).elim "?" fun r => r.combinator.name
  s!"{g.catText s.cat} <{combinator}>"

def Grammar.render (g : Grammar) (t : Derivation) : String := t.display g.stepText

/-- The lexical category of a word, which is missing in a sentence without a derivation. -/
inductive Supertag where
  | cat (id : CatId)
  | failure
  deriving DecidableEq, Repr

def Supertag.text (g : Grammar) : Supertag → String
  | cat id => g.catText id
  | failure => "FAILURE"

def supertags (t : Option Derivation) (length : Nat) : List Supertag :=
  match t with
  | some t => t.leaves.map fun (s, _) => .cat s.cat
  | none => List.replicate length .failure

end Categorial
