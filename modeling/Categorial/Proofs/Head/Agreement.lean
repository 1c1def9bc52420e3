import Categorial.Dependency
import Categorial.Model.Generative
import Categorial.Model.Perceptron
import Categorial.Proofs.Head.Side
import Categorial.Proofs.Treebank.Lines
set_option autoImplicit false

/-!
Two ways to find the head of a phrase. One follows the head side of the rules down to a word; this is the
head that scoring models see. The other reads it off the predicate that the decoding of dependencies gives.
The first goes by the markup of the category that a functor has, the second by the markup of the words in
it. They find the same word exactly if these markups agree at every step on the way.
-/

namespace Categorial

namespace Grammar

/-- What the grammar licenses by application and composition alone. -/
inductive Combined (g : Grammar) : Derivation → Prop
  | leaf {cat : CatId} {id : RuleId} (word : Nat) : g.lexicalRule? cat = some id →
      Combined g (.leaf ⟨cat, id⟩ (.word word))
  | node {left right : Derivation} {id : RuleId} {rule : Rule} {side : Side} :
      g.rule? id = some rule → rule.production = .binary left.step.cat right.step.cat →
      rule.combinator.functorSide? = some side → left.span.stop = right.span.start →
      Combined g left → Combined g right →
      Combined g (.branch ⟨rule.result, id⟩ (left.span.join right.span) [left, right])

/-- The word that is reached by going down to the head child of every binary step. -/
def headWord (g : Grammar) : Derivation → Nat
  | .leaf _ span => span.start
  | .branch _ _ [child] => g.headWord child
  | .branch step _ [left, right] =>
    match (g.rule? step.rule).bind Rule.headSide? with
    | some .right => g.headWord right
    | _ => g.headWord left
  | .branch _ span _ => span.start

/-- The argument that a phrase awaits to have its head from it, by the markup of its words. -/
def awaited? (g : Grammar) : Derivation → Option Nat
  | .leaf step _ => g.headArgument? step.cat
  | .branch step _ [left, right] =>
    (g.rule? step.rule).bind fun rule => rule.combinator.functorSide?.bind fun side =>
      rule.combinator.awaited? (side.pick (g.awaited? left) (g.awaited? right))
        (side.opposite.pick (g.awaited? left) (g.awaited? right))
  | .branch _ _ _ => none

/-- At every step down to the head word the category of the functor has its head from the outermost argument
if and only if the functor awaits it, and where it does the argument has a head. -/
inductive WellMarked (g : Grammar) : Derivation → Prop
  | leaf (step : Step) (span : Span) : WellMarked g (.leaf step span)
  | functor {step : Step} {span : Span} {left right : Derivation} {rule : Rule} {side : Side} :
      g.rule? step.rule = some rule → rule.combinator.functorSide? = some side →
      g.headFromOuter (side.pick left right).step.cat = false →
      g.awaited? (side.pick left right) = none →
      WellMarked g (side.pick left right) → WellMarked g (.branch step span [left, right])
  | argument {step : Step} {span : Span} {left right : Derivation} {rule : Rule} {side : Side} :
      g.rule? step.rule = some rule → rule.combinator.functorSide? = some side →
      g.headFromOuter (side.pick left right).step.cat = true →
      g.awaited? (side.pick left right) = some 0 → g.awaited? (side.opposite.pick left right) = none →
      WellMarked g (side.opposite.pick left right) → WellMarked g (.branch step span [left, right])

/-- At every step the category of the phrase awaits the argument that a phrase awaits whose functor and
argument await those of their categories. A functor that awaits the head of what it composes with meets a
head there, or a category that awaits its outermost argument itself. -/
inductive Concordant (g : Grammar) : Derivation → Prop
  | leaf (step : Step) (span : Span) : Concordant g (.leaf step span)
  | node {step : Step} {span : Span} {left right : Derivation} {rule : Rule} {side : Side} :
      g.rule? step.rule = some rule → rule.combinator.functorSide? = some side →
      g.headArgument? step.cat = rule.combinator.awaited?
        (g.headArgument? (side.pick left right).step.cat)
        (g.headArgument? (side.opposite.pick left right).step.cat) →
      (rule.combinator.composes = true → g.headArgument? (side.pick left right).step.cat = some 0 →
        ∀ k, g.headArgument? (side.opposite.pick left right).step.cat ≠ some (k + 1)) →
      Concordant g left → Concordant g right → Concordant g (.branch step span [left, right])

end Grammar

def Head.argument? : Head → Option Nat
  | .words _ => none
  | .argument k => some k

theorem Head.argument?_eq_none_iff {head : Head} : head.argument? = none ↔ ∃ words, head = .words words := by
  cases head <;> simp [argument?]

theorem Head.argument?_eq_some_iff {head : Head} {k : Nat} :
    head.argument? = some k ↔ head = .argument k := by
  cases head <;> simp [argument?]

namespace Predicate

theorem head_apply {functor arg : Predicate} (hraised : functor.raised = false) {words : List Nat}
    (h : (apply functor arg).1.head = .words words) :
    functor.head = .words words ∨ functor.head = .argument 0 ∧ arg.head = .words words := by
  simp only [apply, hraised, Bool.false_eq_true, if_false] at h
  cases hfunctor : functor.head with
  | words ws => exact .inl (by simpa [hfunctor] using h)
  | argument k =>
    cases k with
    | zero => exact .inr ⟨rfl, by simpa [hfunctor] using h⟩
    | succ k => simp [hfunctor] at h

theorem head_compose {primary secondary : Predicate} (hraised : primary.raised = false)
    {words : List Nat} (h : (compose primary secondary).1.head = .words words) :
    primary.head = .words words ∨
      primary.head = .argument 0 ∧ (secondary.head = .words words ∨ words = []) := by
  simp only [compose, hraised, Bool.false_eq_true, if_false] at h
  cases hprimary : primary.head with
  | words ws => exact .inl (by simpa [hprimary] using h)
  | argument k =>
    cases k with
    | succ k => simp [hprimary] at h
    | zero =>
      refine .inr ⟨rfl, ?_⟩
      rw [hprimary] at h
      cases hsecondary : secondary.head with
      | words ws => exact .inl (by simpa [hsecondary] using h)
      | argument k =>
        cases k with
        | zero => simp [hsecondary] at h
        | succ k => exact .inr (by simpa [hsecondary, eq_comm] using h)

theorem binary_of_functorSide? {rule : Rule} {side : Side} (h : rule.combinator.functorSide? = some side)
    (left right : Predicate) (arity : Nat) :
    rule.combinator.composes = false ∧
        binary rule left right arity = apply (side.pick left right) (side.opposite.pick left right) ∨
      rule.combinator.composes = true ∧
        binary rule left right arity = compose (side.pick left right) (side.opposite.pick left right) := by
  unfold binary
  cases hrule : rule.combinator <;> rw [hrule] at h <;> cases h
  · exact .inl ⟨rfl, rfl⟩
  · exact .inl ⟨rfl, rfl⟩
  · exact .inr ⟨rfl, rfl⟩
  · exact .inr ⟨rfl, rfl⟩
  · exact .inr ⟨rfl, rfl⟩

section

variable {rule : Rule} {side : Side} {left right : Predicate}

theorem raised_binary (h : rule.combinator.functorSide? = some side)
    (hraised : (side.pick left right).raised = false) (arity : Nat) :
    (binary rule left right arity).1.raised = false := by
  rcases binary_of_functorSide? h left right arity with ⟨_, heq⟩ | ⟨_, heq⟩
  · simp [heq, apply, hraised]
  · simp [heq, compose, hraised]

theorem argument?_head_binary (h : rule.combinator.functorSide? = some side)
    (hraised : (side.pick left right).raised = false) (arity : Nat) :
    (binary rule left right arity).1.head.argument? = rule.combinator.awaited?
      (side.pick left right).head.argument? (side.opposite.pick left right).head.argument? := by
  rcases binary_of_functorSide? h left right arity with ⟨hcomposes, heq⟩ | ⟨hcomposes, heq⟩
  · simp only [heq, apply, hraised, Bool.false_eq_true, if_false]
    rcases (side.pick left right).head with _ | _ | k
    · rfl
    · simp [Head.argument?, Combinator.awaited?, hcomposes]
    · simp [Head.argument?, Combinator.awaited?, hcomposes]
  · simp only [heq, compose, hraised, Bool.false_eq_true, if_false]
    rcases (side.pick left right).head with _ | _ | k
    · rfl
    · rcases (side.opposite.pick left right).head with _ | _ | j <;>
        simp [Head.argument?, Combinator.awaited?, hcomposes, Option.filter_some]
    · simp [Head.argument?, Combinator.awaited?, hcomposes]

/-- A known head of a phrase is that of its functor, or that of the argument for which the functor waits.
In a composition neither may have one; then the head is known to be no word. -/
theorem head_binary (h : rule.combinator.functorSide? = some side)
    (hraised : (side.pick left right).raised = false) {arity : Nat} {words : List Nat}
    (hhead : (binary rule left right arity).1.head = .words words) :
    (side.pick left right).head = .words words ∨ (side.pick left right).head = .argument 0 ∧
      ((side.opposite.pick left right).head = .words words ∨ words = []) := by
  rcases binary_of_functorSide? h left right arity with ⟨_, heq⟩ | ⟨_, heq⟩
  · rw [heq] at hhead
    rcases head_apply hraised hhead with hfunctor | ⟨hfunctor, harg⟩
    · exact .inl hfunctor
    · exact .inr ⟨hfunctor, .inl harg⟩
  · rw [heq] at hhead
    exact head_compose hraised hhead

theorem head_binary_of_functor (h : rule.combinator.functorSide? = some side)
    (hraised : (side.pick left right).raised = false) (arity : Nat) {words : List Nat}
    (hfunctor : (side.pick left right).head = .words words) :
    (binary rule left right arity).1.head = .words words := by
  rcases binary_of_functorSide? h left right arity with ⟨_, heq⟩ | ⟨_, heq⟩
  · simp [heq, apply, hraised, hfunctor]
  · simp [heq, compose, hraised, hfunctor]

theorem head_binary_of_argument (h : rule.combinator.functorSide? = some side)
    (hraised : (side.pick left right).raised = false) (arity : Nat) {words : List Nat}
    (hfunctor : (side.pick left right).head = .argument 0)
    (harg : (side.opposite.pick left right).head = .words words) :
    (binary rule left right arity).1.head = .words words := by
  rcases binary_of_functorSide? h left right arity with ⟨_, heq⟩ | ⟨_, heq⟩
  · simp [heq, apply, hraised, hfunctor, harg]
  · simp [heq, compose, hraised, hfunctor, harg]

end

theorem argument?_head_lexical (g : Grammar) (cat : CatId) (word : Nat) :
    (lexical g cat word).head.argument? = g.headArgument? cat := by
  simp only [lexical, Grammar.headArgument?]
  rcases (g.markup cat).headSlot with _ | slot
  · rfl
  · simp only [Option.bind_some]
    split
    · rfl
    · rfl

theorem head_lexical {g : Grammar} {cat : CatId} {word : Nat} {words : List Nat}
    (h : (lexical g cat word).head = .words words) : words = [word] := by
  simp only [lexical] at h
  split at h
  · split at h
    · cases h
    · cases h
      rfl
  · cases h
    rfl

end Predicate

def Span.Holds (s : Span) (word : Nat) : Prop := s.start ≤ word ∧ word < s.stop

theorem Span.not_holds_both {s t : Span} (h : s.stop ≤ t.start) {word : Nat} (hs : s.Holds word) :
    ¬ t.Holds word := by
  intro ht
  obtain ⟨_, hlt⟩ := hs
  obtain ⟨hle, _⟩ := ht
  omega

namespace Grammar

variable {g : Grammar}

section

variable {left right : Derivation} {id : RuleId} {rule : Rule} {side : Side} {span : Span}

theorem decode_node (hrule : g.rule? id = some rule) (cat : CatId) :
    (g.decode (.branch ⟨cat, id⟩ span [left, right])).1 =
      (Predicate.binary rule (g.decode left).1 (g.decode right).1 (g.arityOf cat)).1 := by
  rw [decode, hrule]

theorem headWord_node (hrule : g.rule? id = some rule) {headSide : Side}
    (hhead : rule.headSide? = some headSide) (cat : CatId) :
    g.headWord (.branch ⟨cat, id⟩ span [left, right]) = g.headWord (headSide.pick left right) := by
  rw [headWord, hrule, Option.bind_some, hhead]
  cases headSide <;> rfl

end

theorem decode_pick (side : Side) (left right : Derivation) :
    side.pick (g.decode left).1 (g.decode right).1 = (g.decode (side.pick left right)).1 := by
  cases side <;> rfl

theorem Combined.start_lt_stop {t : Derivation} (h : g.Combined t) : t.span.start < t.span.stop := by
  induction h with
  | leaf word _ => exact Nat.lt_succ_self word
  | @node left right _ _ _ _ _ _ hmeet _ _ ihl ihr =>
    have hjoin : (left.span.join right.span) = ⟨left.span.start, right.span.stop⟩ := rfl
    rw [Derivation.span, hjoin]
    simp only
    omega

theorem Combined.raised_eq_false {t : Derivation} (h : g.Combined t) : (g.decode t).1.raised = false := by
  induction h with
  | leaf word _ => rfl
  | @node left right id rule side hrule _ hside _ _ _ ihl ihr =>
    rw [decode_node hrule]
    exact Predicate.raised_binary hside
      (Side.forall_pick (P := fun p : Predicate => p.raised = false) ihl ihr side) _

theorem raised_pick {left right : Derivation} (hl : g.Combined left) (hr : g.Combined right) (side : Side) :
    (side.pick (g.decode left).1 (g.decode right).1).raised = false :=
  Side.forall_pick (P := fun p : Predicate => p.raised = false) hl.raised_eq_false hr.raised_eq_false side

theorem Combined.argument?_head {t : Derivation} (h : g.Combined t) :
    (g.decode t).1.head.argument? = g.awaited? t := by
  induction h with
  | leaf word _ =>
    rw [decode, awaited?]
    exact Predicate.argument?_head_lexical g _ _
  | @node left right id rule side hrule _ hside _ hl hr ihl ihr =>
    have hpick (s : Side) : (s.pick (g.decode left).1 (g.decode right).1).head.argument? =
        s.pick (g.awaited? left) (g.awaited? right) := by
      cases s
      · exact ihl
      · exact ihr
    rw [decode_node hrule, Predicate.argument?_head_binary hside (raised_pick hl hr side), hpick, hpick,
      awaited?, hrule, Option.bind_some, hside, Option.bind_some]

theorem Combined.awaited?_of_words {t : Derivation} (h : g.Combined t) {words : List Nat}
    (hhead : (g.decode t).1.head = .words words) : g.awaited? t = none := by
  rw [← h.argument?_head, hhead]
  rfl

theorem Combined.awaited?_of_argument {t : Derivation} (h : g.Combined t) {k : Nat}
    (hhead : (g.decode t).1.head = .argument k) : g.awaited? t = some k := by
  rw [← h.argument?_head, hhead]
  rfl

theorem Combined.exists_words {t : Derivation} (h : g.Combined t) (hnone : g.awaited? t = none) :
    ∃ words, (g.decode t).1.head = .words words :=
  Head.argument?_eq_none_iff.mp (h.argument?_head.trans hnone)

theorem Combined.head_eq_argument {t : Derivation} (h : g.Combined t) {k : Nat}
    (hsome : g.awaited? t = some k) : (g.decode t).1.head = .argument k :=
  Head.argument?_eq_some_iff.mp (h.argument?_head.trans hsome)

theorem holds_join {left right : Derivation} (hl : g.Combined left) (hr : g.Combined right)
    (hmeet : left.span.stop = right.span.start) (side : Side) {word : Nat}
    (h : (side.pick left right).span.Holds word) : (left.span.join right.span).Holds word := by
  have hleft := hl.start_lt_stop
  have hright := hr.start_lt_stop
  obtain ⟨hle, hlt⟩ := h
  simp only [Span.Holds, Span.join]
  cases side with
  | left =>
    simp only [Side.pick] at hle hlt
    omega
  | right =>
    simp only [Side.pick] at hle hlt
    omega

/-- The words of a known head stand in the phrase. -/
def HeadHeld (g : Grammar) (t : Derivation) : Prop :=
  ∀ {words : List Nat}, (g.decode t).1.head = .words words → ∀ w ∈ words, t.span.Holds w

theorem Combined.headHeld {t : Derivation} (h : g.Combined t) : g.HeadHeld t := by
  induction h with
  | leaf word _ =>
    intro words hhead w hw
    rw [Predicate.head_lexical hhead, List.mem_singleton] at hw
    subst hw
    exact ⟨Nat.le_refl _, Nat.lt_succ_self _⟩
  | @node left right id rule side hrule _ hside hmeet hl hr ihl ihr =>
    intro words hhead w hw
    have ih := Side.forall_pick (P := g.HeadHeld) ihl ihr
    rw [decode_node hrule] at hhead
    rcases Predicate.head_binary hside (raised_pick hl hr side) hhead with hfunctor | ⟨_, harg | rfl⟩
    · rw [decode_pick] at hfunctor
      exact holds_join hl hr hmeet side (ih side hfunctor w hw)
    · rw [decode_pick] at harg
      exact holds_join hl hr hmeet side.opposite (ih side.opposite harg w hw)
    · cases hw

theorem Combined.holds_headWord {t : Derivation} (h : g.Combined t) : t.span.Holds (g.headWord t) := by
  induction h with
  | leaf word _ => exact ⟨Nat.le_refl _, Nat.lt_succ_self _⟩
  | @node left right id rule side hrule _ hside hmeet hl hr ihl ihr =>
    have hpick : ∃ side : Side, g.headWord (.branch ⟨rule.result, id⟩ (left.span.join right.span)
        [left, right]) = g.headWord (side.pick left right) := by
      rw [headWord]
      split
      · exact ⟨.right, rfl⟩
      · exact ⟨.left, rfl⟩
    obtain ⟨side, hpick⟩ := hpick
    rw [hpick]
    exact holds_join hl hr hmeet side
      (Side.forall_pick (P := fun t : Derivation => t.span.Holds (g.headWord t)) ihl ihr side)

theorem not_holds_pick_both {left right : Derivation} (hmeet : left.span.stop = right.span.start)
    (side : Side) {word : Nat} (h : (side.pick left right).span.Holds word) :
    ¬ (side.opposite.pick left right).span.Holds word := by
  cases side with
  | left => exact Span.not_holds_both (Nat.le_of_eq hmeet) h
  | right => exact fun h' => Span.not_holds_both (Nat.le_of_eq hmeet) h' h

/-- A known head is the head word if and only if the markups agree on the way to this word. -/
def HeadAgrees (g : Grammar) (t : Derivation) : Prop :=
  ∀ {words : List Nat}, (g.decode t).1.head = .words words → (words = [g.headWord t] ↔ g.WellMarked t)

theorem Concordant.awaited?_eq {t : Derivation} (h : g.Concordant t) :
    g.awaited? t = g.headArgument? t.step.cat := by
  induction h with
  | leaf step span => rfl
  | @node step span left right rule side hrule hside hfit _ _ _ ihl ihr =>
    have hpick (s : Side) : s.pick (g.awaited? left) (g.awaited? right) =
        g.headArgument? (s.pick left right).step.cat := by
      cases s
      · exact ihl
      · exact ihr
    rw [awaited?, hrule, Option.bind_some, hside, Option.bind_some, hpick, hpick, Derivation.step, hfit]

theorem Concordant.wellMarked {t : Derivation} (h : g.Concordant t) (hnone : g.awaited? t = none) :
    g.WellMarked t := by
  induction h with
  | leaf step span => exact .leaf step span
  | @node step span left right rule side hrule hside hfit hmeet hl hr ihl ihr =>
    have ih := Side.forall_pick (P := fun t => g.awaited? t = none → g.WellMarked t) ihl ihr
    have heq := Side.forall_pick (P := fun t => g.awaited? t = g.headArgument? t.step.cat)
      hl.awaited?_eq hr.awaited?_eq
    rw [(Concordant.node hrule hside hfit hmeet hl hr).awaited?_eq, Derivation.step, hfit] at hnone
    cases hfunctor : g.headArgument? (side.pick left right).step.cat with
    | none =>
      have houter : g.headFromOuter (side.pick left right).step.cat = false := by
        rw [← Bool.not_eq_true, headFromOuter_eq_true_iff, hfunctor]
        simp
      have hown := (heq side).trans hfunctor
      exact .functor hrule hside houter hown (ih side hown)
    | some k =>
      cases k with
      | succ k =>
        rw [hfunctor] at hnone
        cases hnone
      | zero =>
        -- in a composition the argument could await a later argument of its own, but for `hmeet`
        have harg : g.headArgument? (side.opposite.pick left right).step.cat = none := by
          rw [hfunctor, Combinator.awaited?] at hnone
          split at hnone
          · rename_i hcomposes
            cases hk : g.headArgument? (side.opposite.pick left right).step.cat with
            | none => rfl
            | some k =>
              cases k with
              | zero =>
                rw [hk] at hnone
                cases hnone
              | succ k => exact absurd hk (hmeet hcomposes hfunctor k)
          · exact hnone
        have hgiven := (heq side.opposite).trans harg
        exact .argument hrule hside (headFromOuter_eq_true_iff.mpr hfunctor) ((heq side).trans hfunctor)
          hgiven (ih side.opposite hgiven)

end Grammar

namespace GrammarBuilder

variable {b : GrammarBuilder} {gid : Nat} {g : Grammar}

section

variable {left right : Derivation} {id : RuleId} {rule : Rule} {side : Side} {words : List Nat}
  (h : b.build gid = .ok g) (hrule : g.rule? id = some rule)
  (hp : rule.production = .binary left.step.cat right.step.cat)
  (hside : rule.combinator.functorSide? = some side) (hl : g.Combined left) (hr : g.Combined right)
  (ih : ∀ side : Side, g.HeadAgrees (side.pick left right))

include h hrule hp hside

/-- The head word of a phrase is in its functor, unless the category of the functor has its head from
outside. -/
theorem headWord_of_build {cat : CatId} {span : Span} :
    g.headWord (.branch ⟨cat, id⟩ span [left, right]) =
      if g.headFromOuter (side.pick left right).step.cat then g.headWord (side.opposite.pick left right)
      else g.headWord (side.pick left right) := by
  have hto := headSide?_of_build h hrule hp hside
  have hcat : side.pick left.step.cat right.step.cat = (side.pick left right).step.cat := by
    cases side <;> rfl
  rw [Grammar.headWord_node hrule hto, hcat]
  split
  · rfl
  · rfl

include hl hr ih

/-- A head that comes from the child on the one side is no word of the child on the other, where the head
word is if the two part. -/
theorem wellMarked_node (hmeet : left.span.stop = right.span.start) {cat : CatId} {span : Span}
    (hhead : (g.decode (.branch ⟨cat, id⟩ span [left, right])).1.head =
      .words [g.headWord (.branch ⟨cat, id⟩ span [left, right])]) :
    g.WellMarked (.branch ⟨cat, id⟩ span [left, right]) := by
  have hheld := Side.forall_pick (P := g.HeadHeld) hl.headHeld hr.headHeld
  have hword := Side.forall_pick (P := fun t : Derivation => t.span.Holds (g.headWord t))
    hl.holds_headWord hr.holds_headWord
  have hcombined := Side.forall_pick (P := g.Combined) hl hr
  have hraised := Grammar.raised_pick hl hr side
  rw [Grammar.decode_node hrule, headWord_of_build h hrule hp hside] at hhead
  cases houter : g.headFromOuter (side.pick left right).step.cat with
  | false =>
    rw [houter, if_neg Bool.false_ne_true] at hhead
    rcases Predicate.head_binary hside hraised hhead with hfunctor | ⟨_, harg | hnone⟩
    · rw [Grammar.decode_pick] at hfunctor
      exact .functor hrule hside houter ((hcombined side).awaited?_of_words hfunctor)
        ((ih side hfunctor).mp rfl)
    · -- the argument has the head, but the head word is in the functor
      rw [Grammar.decode_pick] at harg
      exact absurd (hheld side.opposite harg _ (List.mem_singleton_self _))
        (Grammar.not_holds_pick_both hmeet side (hword side))
    · cases hnone
  | true =>
    rw [houter, if_pos rfl] at hhead
    rcases Predicate.head_binary hside hraised hhead with hfunctor | ⟨hfunctor, harg | hnone⟩
    · -- the functor has the head, but the head word is in the argument
      rw [Grammar.decode_pick] at hfunctor
      exact absurd (hword side.opposite) (Grammar.not_holds_pick_both hmeet side
        (hheld side hfunctor _ (List.mem_singleton_self _)))
    · rw [Grammar.decode_pick] at hfunctor harg
      exact .argument hrule hside houter ((hcombined side).awaited?_of_argument hfunctor)
        ((hcombined side.opposite).awaited?_of_words harg) ((ih side.opposite harg).mp rfl)
    · cases hnone

theorem words_eq_of_wellMarked_node {cat : CatId} {span : Span}
    (hmarked : g.WellMarked (.branch ⟨cat, id⟩ span [left, right]))
    (hhead : (g.decode (.branch ⟨cat, id⟩ span [left, right])).1.head = .words words) :
    words = [g.headWord (.branch ⟨cat, id⟩ span [left, right])] := by
  have hcombined := Side.forall_pick (P := g.Combined) hl hr
  have hraised := Grammar.raised_pick hl hr side
  rw [Grammar.decode_node hrule] at hhead
  rw [headWord_of_build h hrule hp hside]
  cases hmarked with
  | functor hrule' hside' houter hown hmarked =>
    cases hrule.symm.trans hrule'
    cases hside.symm.trans hside'
    obtain ⟨ws, hfunctor⟩ := (hcombined side).exists_words hown
    have hknown := Predicate.head_binary_of_functor hside hraised (g.arityOf cat)
      ((congrArg Predicate.head (Grammar.decode_pick side left right)).trans hfunctor)
    cases hhead.symm.trans hknown
    rw [houter, if_neg Bool.false_ne_true]
    exact (ih side hfunctor).mpr hmarked
  | argument hrule' hside' houter hawaits hgiven hmarked =>
    cases hrule.symm.trans hrule'
    cases hside.symm.trans hside'
    have hfunctor := (hcombined side).head_eq_argument hawaits
    obtain ⟨ws, harg⟩ := (hcombined side.opposite).exists_words hgiven
    have hknown := Predicate.head_binary_of_argument hside hraised (g.arityOf cat)
      ((congrArg Predicate.head (Grammar.decode_pick side left right)).trans hfunctor)
      ((congrArg Predicate.head (Grammar.decode_pick side.opposite left right)).trans harg)
    cases hhead.symm.trans hknown
    rw [houter, if_pos rfl]
    exact (ih side.opposite harg).mpr hmarked

end

theorem headAgrees_of_build (h : b.build gid = .ok g) {t : Derivation} (ht : g.Combined t) :
    g.HeadAgrees t := by
  induction ht with
  | leaf word _ =>
    intro words hhead
    have hwords := Predicate.head_lexical hhead
    exact ⟨fun _ => .leaf _ _, fun _ => hwords⟩
  | @node left right id rule side hrule hp hside hmeet hl hr ihl ihr =>
    have ih := Side.forall_pick (P := g.HeadAgrees) ihl ihr
    intro words hhead
    constructor
    · rintro rfl
      exact wellMarked_node h hrule hp hside hl hr ih hmeet hhead
    · exact fun hmarked => words_eq_of_wellMarked_node h hrule hp hside hl hr ih hmarked hhead

end GrammarBuilder

/-- A model that tells phrases apart by the position of their heads, which it takes from the head child. -/
def Refiner.Percolates (m : Refiner) : Prop :=
  (∀ ctx cat word, (m.refineLexical ctx cat word).head = some word) ∧
    m.refineBinary = Context.childRefinement

theorem Perceptron.percolates {α : Type} (m : Perceptron α) : m.refiner.Percolates :=
  ⟨fun _ _ _ => rfl, rfl⟩

theorem GenerativeModel.percolates {m : GenerativeModel} (h : m.refinesHeads = true) :
    m.refiner.Percolates :=
  ⟨fun _ _ _ => by simp [refiner, refineLexical, h], rfl⟩

theorem Refiner.head_walk {m : Refiner} (hm : m.Percolates) {ctx : Context} {t : Derivation}
    (ht : ctx.grammar.Combined t) : ∃ site steps, m.walk ctx t = .ok (site, steps) ∧
      site.refinement.head = some (ctx.grammar.headWord t) := by
  obtain ⟨hlexical, hbinary⟩ := hm
  induction ht with
  | leaf word _ => exact ⟨_, _, rfl, hlexical _ _ _⟩
  | @node left right id rule side hrule _ _ _ _ _ ihl ihr =>
    obtain ⟨siteLeft, stepsLeft, hleft, hheadLeft⟩ := ihl
    obtain ⟨siteRight, stepsRight, hright, hheadRight⟩ := ihr
    rw [walk, hleft, hright]
    refine ⟨_, _, rfl, ?_⟩
    rw [Grammar.headWord, hbinary, Context.childRefinement, hrule, Option.bind_some]
    simp only [headRefinement]
    rcases rule.headSide? with _ | _ | _
    · exact hheadLeft
    · exact hheadLeft
    · exact hheadRight

namespace GrammarBuilder

/-- The head of a predicate and the head that models see, under a grammar with any markup. -/
theorem head_agrees_iff_wellMarked {b : GrammarBuilder} {gid : Nat} {g : Grammar}
    (h : b.build gid = .ok g) {t : Derivation} (ht : g.Combined t) :
    (∀ words, (g.decode t).1.head = .words words → (words = [g.headWord t] ↔ g.WellMarked t)) ∧
      (g.Concordant t → ∀ words, (g.decode t).1.head = .words words → words = [g.headWord t]) ∧
      ∀ (m : Refiner) (ctx : Context), m.Percolates → ctx.grammar = g →
        ∃ site steps, m.walk ctx t = .ok (site, steps) ∧
          site.refinement.head = some (g.headWord t) := by
  refine ⟨fun words hhead => headAgrees_of_build h ht hhead, ?_, ?_⟩
  · intro hfit words hhead
    exact (headAgrees_of_build h ht hhead).mpr (hfit.wellMarked (ht.awaited?_of_words hhead))
  · rintro m ctx hm rfl
    exact Refiner.head_walk hm ht

end GrammarBuilder

namespace Nested

/-! The codebook of one tree. An adverb makes an adjective of a noun: its phrase has the category of a
modifier, but the adverb for its head. -/

open GrammarBuilder

def clause : Category := .atom "S" none

def noun : Category := .atom "N" none

def verb : Category := .functor clause .forward noun

def adjective : Category := .functor noun .forward noun

def adverb : Category := .functor adjective .forward noun

def tree : BankTree :=
  .node clause 0 [.leaf verb ⟨"see", "VB", some verb.text⟩,
    .node noun 1 [
      .node adjective 0 [.leaf adverb ⟨"stone", "NN", some adverb.text⟩, .leaf noun ⟨"age", "NN", some noun.text⟩],
      .node noun 1 [.leaf adjective ⟨"old", "JJ", some adjective.text⟩, .leaf noun ⟨"tools", "NNS", some noun.text⟩]]]

def catIds : Std.HashMap String CatId :=
  (((((∅ : Std.HashMap String CatId).insert clause.text 0).insert verb.text 1).insert noun.text 2).insert
    adjective.text 3).insert adverb.text 4

def builder : GrammarBuilder :=
  { GrammarBuilder.empty with
    categories := #[clause, verb, noun, adjective, adverb]
    catIds := catIds
    lexical := ⟨[(1, 1), (2, 2), (3, 1), (4, 1)]⟩
    start := ⟨[(0, 1)]⟩
    seenBinary := ⟨[(⟨1, 2, .observed, 0⟩, 1), (⟨3, 2, .observed, 2⟩, 2), (⟨4, 2, .observed, 3⟩, 1)]⟩
    enumerate := false }

theorem rules_builder : builder.rules =
    [⟨0, .lexical, .lexical, 1, .terminal, 1⟩, ⟨1, .lexical, .lexical, 2, .terminal, 2⟩,
      ⟨2, .lexical, .lexical, 3, .terminal, 1⟩, ⟨3, .lexical, .lexical, 4, .terminal, 1⟩,
      ⟨4, .leftBinary, .fwdApp, 0, .binary 1 2, 1⟩, ⟨5, .rightBinary, .fwdApp, 2, .binary 3 2, 2⟩,
      ⟨6, .leftBinary, .fwdApp, 3, .binary 4 2, 1⟩, ⟨7, .top, .top, 0, .unary 0, 1⟩] := by
  rfl

theorem codebookMarkups_builder : builder.codebookMarkups = [] := by
  rfl

theorem after_observe : after (observe tree) (GrammarBuilder.empty.setEnumerate false) = builder := by
  have htexts : clause.text = "S" ∧ verb.text = "S/N" ∧ noun.text = "N" ∧ adjective.text = "N/N" ∧
      adverb.text = "(N/N)/N" := by decide
  obtain ⟨hclause, hverb, hnoun, hadjective, hadverb⟩ := htexts
  simp [after, observe, tree, observeNode, exceptT_run_bind, run_intern, intern, run_modify,
    GrammarBuilder.empty, setEnumerate, Std.HashMap.getElem_insert, hclause, hverb, hnoun, hadjective,
    hadverb, builder, catIds]
  exact ⟨rfl, rfl, rfl⟩

theorem read_line : BankTree.read tree.line = .ok tree := by
  have hclause : clause.Proper := ⟨.inl ⟨by decide, List.all_eq_true.mp (by decide)⟩, by simp⟩
  have hnoun : noun.Proper := ⟨.inl ⟨by decide, List.all_eq_true.mp (by decide)⟩, by simp⟩
  have hadjective : adjective.Proper := ⟨hnoun, hnoun⟩
  have see := BankTree.written_word (c := verb) ⟨hclause, hnoun⟩ (.ofList "VB".toList (by decide))
    (.ofList "see".toList (by decide))
  have stone := BankTree.written_word (c := adverb) ⟨hadjective, hnoun⟩ (.ofList "NN".toList (by decide))
    (.ofList "stone".toList (by decide))
  have age := BankTree.written_word hnoun (.ofList "NN".toList (by decide)) (.ofList "age".toList (by decide))
  have old := BankTree.written_word hadjective (.ofList "JJ".toList (by decide)) (.ofList "old".toList (by decide))
  have tools := BankTree.written_word hnoun (.ofList "NNS".toList (by decide)) (.ofList "tools".toList (by decide))
  have stoneAge := BankTree.written_pair hadjective (Nat.zero_le _) stone age
  have oldTools := BankTree.written_pair (n := 1) hnoun (by decide) old tools
  have object := BankTree.written_pair (n := 1) hnoun (by decide) stoneAge oldTools
  exact (BankTree.written_pair hclause (Nat.zero_le _) see object).read_line

theorem made_builder : Made builder := by
  rw [← after_observe]
  exact .observe read_line (.setEnumerate false .empty)

theorem exists_build : ∃ g, builder.build 0 = .ok g ∧ g.Indexed ∧ g.categories = builder.categories ∧
    g.rules = builder.rules.toArray ∧ g.markups = [] := by
  obtain ⟨g, hg⟩ : ∃ g, Grammar.ofRules 0 builder.categories builder.rules builder.codebookMarkups =
      .ok g := by
    rw [rules_builder]
    exact Grammar.exists_ofRules 0 _ (by decide) rfl (by decide) (by decide)
  obtain ⟨_, _, ⟨hcategories, _, hmarkups, _, _⟩, hrules⟩ := Grammar.contents_ofRules hg
  rw [codebookMarkups_builder] at hmarkups
  exact ⟨g, by rw [build, hg]; rfl, Grammar.indexed_ofRules hg, hcategories, by rw [← hrules], hmarkups⟩

def modified : Derivation :=
  .branch ⟨2, 5⟩ ⟨3, 5⟩ [.leaf ⟨3, 2⟩ ⟨3, 4⟩, .leaf ⟨2, 1⟩ ⟨4, 5⟩]

/-- The adjective before it is made by an adverb. -/
def phrase : Derivation :=
  .branch ⟨2, 5⟩ ⟨1, 5⟩ [.branch ⟨3, 6⟩ ⟨1, 3⟩ [.leaf ⟨4, 3⟩ ⟨1, 2⟩, .leaf ⟨2, 1⟩ ⟨2, 3⟩], modified]

section

variable {g : Grammar} (hg : g.Indexed) (hcategories : g.categories = builder.categories)
  (hrules : g.rules = builder.rules.toArray) (hmarkups : g.markups = [])

include hg hrules in
theorem combined_leaf {cat : CatId} {id : RuleId} (word : Nat)
    (h : ((builder.rules.filter (Grammar.lexicalFor cat)).map Rule.id).getLast? = some id) :
    g.Combined (.leaf ⟨cat, id⟩ (.word word)) := by
  refine .leaf word ?_
  rw [hg.lexicalRule?, Grammar.idsWhere, hrules]
  exact h

include hrules in
theorem rule?_eq (id : RuleId) : g.rule? id = builder.rules[id]? := by
  rw [Grammar.rule?, hrules]
  simp

include hg hrules in
theorem combined_modified : g.Combined modified :=
  .node (rule?_eq hrules 5) rfl rfl rfl (combined_leaf hg hrules 3 rfl) (combined_leaf hg hrules 4 rfl)

include hg hrules in
theorem combined_phrase : g.Combined phrase :=
  .node (rule?_eq hrules 5) rfl rfl rfl
    (.node (rule?_eq hrules 6) rfl rfl rfl (combined_leaf hg hrules 1 rfl) (combined_leaf hg hrules 2 rfl))
    (combined_modified hg hrules)

include hcategories hrules hmarkups in
theorem head_modified : (g.decode modified).1.head = .words [4] := by
  simp only [modified, Grammar.decode, Grammar.rule?, hrules, Predicate.lexical, Grammar.arityOf,
    Grammar.markup, Grammar.category?, hcategories, hmarkups]
  rfl

include hcategories hrules hmarkups in
theorem head_phrase : (g.decode phrase).1.head = .words [1] := by
  simp only [phrase, modified, Grammar.decode, Grammar.rule?, hrules, Predicate.lexical, Grammar.arityOf,
    Grammar.markup, Grammar.category?, hcategories, hmarkups]
  rfl

include hrules in
theorem headWord_phrase : g.headWord phrase = 4 ∧ g.headWord modified = 4 := by
  simp only [phrase, modified, Grammar.headWord, Grammar.rule?, hrules]
  exact ⟨rfl, rfl⟩

include hcategories hrules hmarkups in
theorem concordant_modified : g.Concordant modified := by
  refine .node (rule?_eq hrules 5) rfl ?_ (fun h => by cases h) (.leaf _ _) (.leaf _ _)
  simp only [Grammar.headArgument?, Grammar.arityOf, Grammar.markup, Grammar.category?, hcategories, hmarkups]
  rfl

end

theorem head_phrase_ne_headWord : Made builder ∧ ∃ g, builder.build 0 = .ok g ∧ g.Combined phrase ∧
    (g.decode phrase).1.head = .words [1] ∧ g.headWord phrase = 4 := by
  obtain ⟨g, hbuild, hg, hcategories, hrules, hmarkups⟩ := exists_build
  exact ⟨made_builder, g, hbuild, combined_phrase hg hrules, head_phrase hcategories hrules hmarkups,
    (headWord_phrase hrules).1⟩

theorem head_agrees_iff_wellMarked_nested : ∃ g, builder.build 0 = .ok g ∧
    g.Combined modified ∧ g.Concordant modified ∧ (g.decode modified).1.head = .words [4] ∧
      g.headWord modified = 4 ∧ g.WellMarked modified ∧
      (∀ s, ∃ site steps, (Perceptron.untrained g : Perceptron Double).refiner.walk ⟨g, s⟩ modified =
        .ok (site, steps) ∧ site.refinement.head = some 4) ∧
      (∀ s, ∃ site steps, (GenerativeModel.untrained g .headword false).refiner.walk ⟨g, s⟩ modified =
        .ok (site, steps) ∧ site.refinement.head = some 4) ∧
    g.Combined phrase ∧ (g.decode phrase).1.head = .words [1] ∧ ¬ g.WellMarked phrase := by
  obtain ⟨g, hbuild, hg, hcategories, hrules, hmarkups⟩ := exists_build
  obtain ⟨hword, hwordModified⟩ := headWord_phrase hrules
  have hphrase := combined_phrase hg hrules
  have hmodified := combined_modified hg hrules
  have hhead := head_phrase hcategories hrules hmarkups
  have hheadModified := head_modified hcategories hrules hmarkups
  have hfit := concordant_modified hcategories hrules hmarkups
  obtain ⟨hiff, hagrees, hmodels⟩ := head_agrees_iff_wellMarked hbuild hmodified
  rw [hwordModified] at hmodels
  refine ⟨g, hbuild, hmodified, hfit, hheadModified, hwordModified, ?_, ?_, ?_, hphrase, hhead, ?_⟩
  · exact (hiff [4] hheadModified).mp (hagrees hfit [4] hheadModified)
  · exact fun s => hmodels _ ⟨g, s⟩ (Perceptron.percolates _) rfl
  · exact fun s => hmodels _ ⟨g, s⟩ (GenerativeModel.percolates rfl) rfl
  · intro hmarked
    have heq := ((head_agrees_iff_wellMarked hbuild hphrase).1 [1] hhead).mpr hmarked
    rw [hword] at heq
    cases heq

end Nested

end Categorial
