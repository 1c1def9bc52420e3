import Categorial.Proofs.Grammar.Making
import Mathlib.Logic.Relation
set_option autoImplicit false

namespace Categorial

namespace GrammarBuilder

/-- One operation on a builder, after which it is as the operation leaves it. -/
inductive Step : GrammarBuilder → GrammarBuilder → Prop
  | addCategory (b : GrammarBuilder) (s : String) : Step b (after (addCategory s) b)
  | addLexical (b : GrammarBuilder) (s : String) : Step b (after (addLexical s) b)
  | addStart (b : GrammarBuilder) (s : String) : Step b (after (addStart s) b)
  | typeRaise (b : GrammarBuilder) (x t : String) : Step b (after (typeRaise x t) b)
  | typeChange (b : GrammarBuilder) (source target : String) : Step b (after (typeChange source target) b)
  | setMarkup (b : GrammarBuilder) (c : String) (m : Markup) : Step b (after (setMarkup c m) b)
  | observe (b : GrammarBuilder) {s : List Char} {t : BankTree} : BankTree.read s = .ok t →
      Step b (after (observe t) b)
  | setCombinators (b : GrammarBuilder) (cs : List Combinator) : Step b (b.setCombinators cs)
  | disable (b : GrammarBuilder) (c : Combinator) : Step b (b.disable c)
  | setEnumerate (b : GrammarBuilder) (on : Bool) : Step b (b.setEnumerate on)
  | setMinCount (b : GrammarBuilder) (n : Nat) : Step b (b.setMinCount n)

/-- Any run of operations leads from one to the other. -/
abbrev Steps : GrammarBuilder → GrammarBuilder → Prop := Relation.ReflTransGen Step

theorem Step.made {b b' : GrammarBuilder} (h : Step b b') (hb : Made b) : Made b' := by
  cases h with
  | addCategory s => exact hb.addCategory s
  | addLexical s => exact hb.addLexical s
  | addStart s => exact hb.addStart s
  | typeRaise x t => exact hb.typeRaise x t
  | typeChange source target => exact hb.typeChange source target
  | setMarkup c m => exact hb.setMarkup c m
  | observe hread => exact hb.observe hread
  | setCombinators cs => exact hb.setCombinators cs
  | disable c => exact hb.disable c
  | setEnumerate on => exact hb.setEnumerate on
  | setMinCount n => exact hb.setMinCount n

theorem Made.steps {b : GrammarBuilder} (hb : Made b) : Steps .empty b := by
  induction hb with
  | empty => exact .refl
  | addCategory s _ ih => exact ih.tail (.addCategory _ s)
  | addLexical s _ ih => exact ih.tail (.addLexical _ s)
  | addStart s _ ih => exact ih.tail (.addStart _ s)
  | typeRaise x t _ ih => exact ih.tail (.typeRaise _ x t)
  | typeChange source target _ ih => exact ih.tail (.typeChange _ source target)
  | setMarkup c m _ ih => exact ih.tail (.setMarkup _ c m)
  | observe hread _ ih => exact ih.tail (.observe _ hread)
  | setCombinators cs _ ih => exact ih.tail (.setCombinators _ cs)
  | disable c _ ih => exact ih.tail (.disable _ c)
  | setEnumerate on _ ih => exact ih.tail (.setEnumerate _ on)
  | setMinCount n _ ih => exact ih.tail (.setMinCount _ n)

theorem Steps.made {b b' : GrammarBuilder} (h : Steps b b') (hb : Made b) : Made b' := by
  induction h with
  | refl => exact hb
  | tail _ hstep ih => exact hstep.made ih

/-- What an operation changes at a time: it files a category, or it alters one of the other fields. -/
inductive Change : GrammarBuilder → GrammarBuilder → Prop
  | intern (b : GrammarBuilder) (c : Category) : Change b (intern c b).2
  | lexical (b : GrammarBuilder) (id : CatId) (f : Option Nat → Nat) :
      Change b { b with lexical := b.lexical.alter f id }
  | start (b : GrammarBuilder) (id : CatId) (f : Option Nat → Nat) :
      Change b { b with start := b.start.alter f id }
  | seenUnary (b : GrammarBuilder) (child id : CatId) (c : Category) :
      Change b { b with seenUnary := b.seenUnary.add ⟨child, unaryCombinator c, id⟩ 1 }
  | seenBinary (b : GrammarBuilder) (left right id : CatId) :
      Change b { b with seenBinary := b.seenBinary.add ⟨left, right, .observed, id⟩ 1 }
  | declared (b : GrammarBuilder) {keys : List UnaryKey} (h : ∀ key ∈ keys, key.combinator.isUnary = true) :
      Change b { b with declared := b.declared ++ keys }
  | markups (b : GrammarBuilder) (markups : List (Category × Markup)) : Change b { b with markups := markups }
  | combinators (b : GrammarBuilder) {cs : List Combinator}
      (h : cs.Sublist Combinator.all ∨ cs.Sublist b.combinators) : Change b { b with combinators := cs }
  | enumerate (b : GrammarBuilder) (on : Bool) : Change b { b with enumerate := on }
  | minCount (b : GrammarBuilder) (n : Nat) : Change b { b with minCount := n }

abbrev Changes : GrammarBuilder → GrammarBuilder → Prop := Relation.ReflTransGen Change

/-- The computation makes such changes only, whether or not it fails. -/
def Changing {β : Type} (x : Building β) : Prop := ∀ b : GrammarBuilder, Changes b (after x b)

section

variable {β γ : Type}

/-- What leads from a builder to the one after a first step, and from there to the one after a second, leads all
the way. -/
theorem after_bind {R : GrammarBuilder → GrammarBuilder → Prop}
    (htrans : ∀ {b b' b'' : GrammarBuilder}, R b b' → R b' b'' → R b b'') {x : Building β} {f : β → Building γ}
    (hx : ∀ b, R b (after x b)) (hf : ∀ a b, R b (after (f a) b)) (b : GrammarBuilder) :
    R b (after (x >>= f) b) := by
  have hfirst := hx b
  rw [after] at hfirst ⊢
  rw [exceptT_run_bind]
  cases hrun : x.run b with
  | mk r b' =>
    rw [hrun] at hfirst
    cases r with
    | error e => exact hfirst
    | ok a => exact htrans hfirst (hf a b')

theorem changing_bind {x : Building β} {f : β → Building γ} (hx : Changing x) (hf : ∀ a, Changing (f a)) :
    Changing (x >>= f) :=
  after_bind Relation.ReflTransGen.trans hx hf

theorem changing_pure (a : β) : Changing (pure a) := fun _ => .refl

theorem changing_throw (e : Error) : Changing (throw e : Building β) := fun _ => .refl

theorem changing_readCategory (s : String) : Changing (readCategory s) := fun _ => .refl

theorem changing_intern (c : Category) : Changing (liftM (intern c) : Building CatId) :=
  fun b => .single (.intern b c)

theorem changing_modify {f : GrammarBuilder → GrammarBuilder} (h : ∀ b : GrammarBuilder, Change b (f b)) :
    Changing (modify f : Building PUnit) := fun b => .single (h b)

end

theorem changing_addCategory (s : String) : Changing (addCategory s) :=
  changing_bind (changing_readCategory s) changing_intern

theorem changing_addLexical (s : String) : Changing (addLexical s) :=
  changing_bind (changing_addCategory s) fun id =>
    changing_bind (changing_modify fun b => .lexical b id _) changing_pure

theorem changing_addStart (s : String) : Changing (addStart s) :=
  changing_bind (changing_addCategory s) fun id =>
    changing_bind (changing_modify fun b => .start b id _) changing_pure

theorem changing_typeRaise (x t : String) : Changing (typeRaise x t) :=
  changing_bind (changing_readCategory x) fun _ => changing_bind (changing_readCategory t) fun _ =>
    changing_bind (changing_intern _) fun _ => changing_bind (changing_intern _) fun _ =>
      changing_bind (changing_intern _) fun _ =>
        changing_modify fun b => .declared b (by simp [Combinator.isUnary])

theorem changing_typeChange (source target : String) : Changing (typeChange source target) :=
  changing_bind (changing_readCategory source) fun _ => changing_bind (changing_readCategory target) fun _ =>
    changing_bind (changing_intern _) fun _ => changing_bind (changing_intern _) fun _ =>
      changing_modify fun b => .declared b (by simp [Combinator.isUnary])

theorem changing_setMarkup (c : String) (m : Markup) : Changing (setMarkup c m) :=
  changing_bind (changing_readCategory c) fun _ => changing_bind (changing_intern _) fun _ =>
    changing_modify fun b => .markups b _

theorem changing_observeNode (t : BankTree) : Changing (observeNode t) := by
  induction t using BankTree.induction with
  | leaf c token =>
    rw [observeNode]
    exact changing_bind (changing_intern c) fun id =>
      changing_bind (changing_modify fun b => .lexical b id _) changing_pure
  | node c head children ih =>
    rcases children with _ | ⟨left, _ | ⟨right, _ | _⟩⟩
    · exact changing_bind (changing_intern c) fun _ => changing_throw _
    · rw [observeNode]
      exact changing_bind (changing_intern c) fun _ => changing_bind (ih left (by simp)) fun _ =>
        changing_bind (changing_modify fun b => .seenUnary b _ _ c) changing_pure
    · rw [observeNode]
      exact changing_bind (changing_intern c) fun _ => changing_bind (ih left (by simp)) fun _ =>
        changing_bind (ih right (by simp)) fun _ =>
          changing_bind (changing_modify fun b => .seenBinary b _ _ _) changing_pure
    · exact changing_bind (changing_intern c) fun _ => changing_throw _

theorem changing_observe (t : BankTree) : Changing (observe t) :=
  changing_bind (changing_observeNode t) fun id =>
    changing_modify fun b => .start b id _

theorem Step.changes {b b' : GrammarBuilder} (h : Step b b') : Changes b b' := by
  cases h with
  | addCategory s => exact changing_addCategory s b
  | addLexical s => exact changing_addLexical s b
  | addStart s => exact changing_addStart s b
  | typeRaise x t => exact changing_typeRaise x t b
  | typeChange source target => exact changing_typeChange source target b
  | setMarkup c m => exact changing_setMarkup c m b
  | @observe _ t _ => exact changing_observe t b
  | setCombinators cs => exact .single (.combinators b (.inl List.filter_sublist))
  | disable c => exact .single (.combinators b (.inr List.filter_sublist))
  | setEnumerate on => exact .single (.enumerate b on)
  | setMinCount n => exact .single (.minCount b n)

theorem Steps.changes {b b' : GrammarBuilder} (h : Steps b b') : Changes b b' := by
  induction h with
  | refl => exact .refl
  | tail _ hstep ih => exact ih.trans hstep.changes

theorem Made.induction {P : GrammarBuilder → Prop} (empty : P .empty)
    (change : ∀ {b b' : GrammarBuilder}, Change b b' → P b → P b') {b : GrammarBuilder} (hb : Made b) : P b := by
  have hchanges : Changes .empty b := hb.steps.changes
  clear hb
  induction hchanges with
  | refl => exact empty
  | tail _ hchange ih => exact change hchange ih

end GrammarBuilder

end Categorial
