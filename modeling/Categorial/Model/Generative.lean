import Categorial.Model.Backoff
import Categorial.Model.Basic
import Categorial.Symbols
set_option autoImplicit false

/-!
Models that generate a derivation from the top. A phrase first picks how it expands, then the category
of its head child, then that of the sibling; a leaf picks its word. Three variants differ in how much of
the phrase they look at: its category, also the lexical category of its head, or also the head's tag and
word. Each of them may look at the distance between the two heads.
-/

namespace Categorial

inductive Conditioning where
  | baseline
  | lexcat
  | headword
  deriving DecidableEq, Repr

namespace Conditioning

def name : Conditioning → String
  | baseline => "baseline"
  | lexcat => "lexcat"
  | headword => "headword"

def ofName? (name : String) : Option Conditioning :=
  [baseline, lexcat, headword].find? fun c => c.name == name

def usesLexcat : Conditioning → Bool
  | baseline => false
  | _ => true

def usesWords : Conditioning → Bool
  | headword => true
  | _ => false

def width (c : Conditioning) : Nat :=
  (if c.usesLexcat then 1 else 0) + (if c.usesWords then 2 else 0)

end Conditioning

/-- Symbols that stand for no category and no word. They lie at the top of the range of ids. -/
inductive Marker where
  | leaf
  | left
  | right
  | unary
  | top
  | nothing
  | unknown
  deriving DecidableEq, Repr

def Marker.id : Marker → Nat
  | leaf => 4294967295
  | left => 4294967294
  | right => 4294967293
  | unary => 4294967292
  | top => 4294967291
  | nothing => 4294967290
  | unknown => 4294967289

/-- The choices of a derivation. -/
inductive Choice where
  | expansion
  | head
  | sibling
  | siblingWord
  | word
  | top
  deriving DecidableEq, Repr

structure Event where
  choice : Choice
  context : List Nat
  outcome : Nat
  deriving DecidableEq, Repr

/-- Numbers of the words and of the tags seen in training. -/
structure Vocabulary where
  words : Symbols
  tags : Symbols

namespace Vocabulary

def empty : Vocabulary := ⟨.empty, .empty⟩

end Vocabulary

abbrev Numbering (β : Type) := StateM Vocabulary β

/-- A missing string and an unknown one have markers for numbers. -/
def numberIn (access : Access) (s : Symbols) (x : Option String) : Nat × Symbols :=
  match x with
  | none => (Marker.nothing.id, s)
  | some x =>
    let (id, s) := s.find access x
    (id.getD Marker.unknown.id, s)

def wordNumber (access : Access) (x : Option String) : Numbering Nat := fun v =>
  let (id, words) := numberIn access v.words x
  (id, { v with words })

def tagNumber (access : Access) (x : Option String) : Numbering Nat := fun v =>
  let (id, tags) := numberIn access v.tags x
  (id, { v with tags })

def extraContext (c : Conditioning) (access : Access) (ctx : Context) (site : Site) :
    Numbering (List Nat) := do
  let lexcat := if c.usesLexcat then [site.refinement.lexcat.getD Marker.nothing.id] else []
  if c.usesWords then do
    let tag ← tagNumber access (ctx.pos? site.refinement.head)
    let word ← wordNumber access (ctx.word? site.refinement.head)
    pure (lexcat ++ [tag, word])
  else pure lexcat

def eventsOf (c : Conditioning) (distance : Bool) (access : Access) (ctx : Context) (rule : Rule) :
    Expansion → Numbering (List Event)
  | .lexical _ site => do
    let extra ← extraContext c access ctx site
    let tag ← tagNumber access (ctx.pos? (some site.span.start))
    let word ← wordNumber access (ctx.word? (some site.span.start))
    pure [⟨.expansion, site.cat :: extra, Marker.leaf.id⟩, ⟨.word, [site.cat, tag], word⟩]
  | .unary _ parent child => do
    let extra ← extraContext c access ctx parent
    pure [⟨.expansion, parent.cat :: extra, Marker.unary.id⟩,
      ⟨.head, parent.cat :: Marker.unary.id :: extra, child.cat⟩]
  | .binary _ parent left right => do
    let (head, sibling, kind) := match rule.headSide? with
      | some .right => (right, left, Marker.right.id)
      | _ => (left, right, Marker.left.id)
    let extra ← extraContext c access ctx parent
    let apart :=
      if distance then [distanceBin left.refinement.head right.refinement.head] else []
    let choices : List Event := [⟨.expansion, parent.cat :: extra, kind⟩,
      ⟨.head, parent.cat :: kind :: extra, head.cat⟩,
      ⟨.sibling, parent.cat :: kind :: head.cat :: apart ++ extra, sibling.cat⟩]
    if c.usesWords then do
      let siblingTag ← tagNumber access (ctx.pos? sibling.refinement.head)
      let siblingWord ← wordNumber access (ctx.word? sibling.refinement.head)
      let headWord ← wordNumber access (ctx.word? head.refinement.head)
      pure (choices ++ [⟨.siblingWord, [sibling.cat, siblingTag, parent.cat, head.cat, headWord],
        siblingWord⟩])
    else pure choices
  | .top _ root => pure [⟨.top, [Marker.top.id], root.cat⟩]

structure GenerativeModel where
  grammarId : Nat
  conditioning : Conditioning
  distance : Bool
  vocabulary : Vocabulary
  expansion : Backoff
  head : Backoff
  sibling : Backoff
  siblingWord : Backoff
  word : Backoff
  top : Backoff
  /-- How often each category was built. -/
  prior : Std.HashMap CatId Nat
  priorTotal : Nat

namespace GenerativeModel

def untrained (g : Grammar) (c : Conditioning) (distance : Bool) : GenerativeModel where
  grammarId := g.id
  conditioning := c
  distance
  vocabulary := .empty
  expansion := .chain (1 + c.width) 1
  head := .chain (2 + c.width) 2
  sibling := .chain (3 + (if distance then 1 else 0) + c.width) 3
  siblingWord := .chain 5 1
  word := .chain 2 1
  top := .chain 1 1
  prior := ∅
  priorTotal := 0

def distribution (m : GenerativeModel) : Choice → Backoff
  | .expansion => m.expansion
  | .head => m.head
  | .sibling => m.sibling
  | .siblingWord => m.siblingWord
  | .word => m.word
  | .top => m.top

def observe (m : GenerativeModel) (e : Event) : GenerativeModel :=
  match e.choice with
  | .expansion => { m with expansion := m.expansion.observe e.context e.outcome }
  | .head => { m with head := m.head.observe e.context e.outcome }
  | .sibling => { m with sibling := m.sibling.observe e.context e.outcome }
  | .siblingWord => { m with siblingWord := m.siblingWord.observe e.context e.outcome }
  | .word => { m with word := m.word.observe e.context e.outcome }
  | .top => { m with top := m.top.observe e.context e.outcome }

/-- The events of a step under the vocabulary as it is. -/
def events (m : GenerativeModel) (ctx : Context) (rule : Rule) (e : Expansion) : List Event :=
  ((eventsOf m.conditioning m.distance .known ctx rule e).run m.vocabulary).1

/-- Heads are told apart only if something looks at them. -/
def refinesHeads (m : GenerativeModel) : Bool := m.conditioning.usesWords || m.distance

def refineLexical (m : GenerativeModel) (cat : CatId) (word : Nat) : Refinement where
  head := if m.refinesHeads then some word else none
  lexcat := if m.conditioning.usesLexcat then some cat else none

def refiner (m : GenerativeModel) : Refiner where
  name := m.conditioning.name
  grammarId := m.grammarId
  refineLexical _ cat word := m.refineLexical cat word
  refineUnary _ _ child := child.refinement
  refineBinary := Context.childRefinement

section Scores

variable {α : Type} [Scalar α]

def total (m : GenerativeModel) (ctx : Context) (rule : Rule) (e : Expansion) : α :=
  (m.events ctx rule e).foldl (fun acc event =>
    Scalar.both acc ((m.distribution event.choice).logProbability event.context event.outcome))
    Scalar.zero

def merit (m : GenerativeModel) (ctx : Context) (site : Site) : α :=
  let seen : α := Scalar.ofNat (m.prior.getD site.cat 0)
  let all : α := Scalar.ofNat m.priorTotal + Scalar.ofNat ctx.grammar.size
  Scalar.ofProbability ((seen + Scalar.one) / all)

def toModel (m : GenerativeModel) : Model α where
  toRefiner := m.refiner
  score ctx e := do
    let rule ← e.check ctx
    pure (m.total ctx rule e)
  merit := m.merit

end Scores

def countStep (ctx : Context) (m : GenerativeModel) (e : Expansion) :
    Except Error GenerativeModel :=
  match ctx.grammar.rule? e.rule with
  | none => .error (.unlicensed (.rule e.rule))
  | some rule =>
    let (events, vocabulary) :=
      (eventsOf m.conditioning m.distance .grow ctx rule e).run m.vocabulary
    let m := events.foldl observe { m with vocabulary }
    .ok (match e with
      | .top _ _ => m
      | e => { m with
          prior := m.prior.insert e.site.cat (m.prior.getD e.site.cat 0 + 1)
          priorTotal := m.priorTotal + 1 })

def countSteps (ctx : Context) (m : GenerativeModel) :
    List Expansion → GenerativeModel × Except Error Unit
  | [] => (m, .ok ())
  | e :: rest =>
    match countStep ctx m e with
    | .error cause => (m, .error cause)
    | .ok m => countSteps ctx m rest

def count (m : GenerativeModel) (ctx : Context) (t : Derivation) :
    GenerativeModel × Except Error Unit :=
  match ctx.grammar.check m.grammarId with
  | .error cause => (m, .error cause)
  | .ok () =>
    match m.refiner.expansions ctx t with
    | .error cause => (m, .error (.unlicensed (.step cause)))
    | .ok steps => countSteps ctx m steps

def estimate (g : Grammar) (c : Conditioning) (distance : Bool)
    (corpus : List (Sentence × Derivation)) : Except Error GenerativeModel :=
  corpus.foldlM (fun m (s, t) =>
    match m.count ⟨g, s⟩ t with
    | (m, .ok ()) => .ok m
    | (_, .error cause) => .error cause) (untrained g c distance)

end GenerativeModel

end Categorial
