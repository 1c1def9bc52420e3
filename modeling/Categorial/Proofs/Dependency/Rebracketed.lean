import Categorial.Proofs.Coarse.Licensed
import Categorial.Proofs.Dependency.Set
import Categorial.Proofs.Grammar.Contents
import Categorial.Proofs.Grammar.Making
import Categorial.Proofs.Treebank.Lines
set_option autoImplicit false

/-!
Two bracketings of a functor, of another that gives its argument, and of the argument of that one: composition
first, or application first. They find the same dependencies as long as no head is asked for before it is known.
-/

namespace Categorial

namespace Predicate

/-- The owners of the outermost argument. -/
def outermost (p : Predicate) : List Owner := p.arguments.head?.getD []

theorem length_merge (ours theirs : List (List Owner)) : (merge ours theirs).length = ours.length := by
  unfold merge
  split
  · rename_i h
    rw [List.length_zipWith, h, Nat.min_self]
  · rfl

theorem merge_of_length_ne {ours theirs : List (List Owner)} (h : ours.length ≠ theirs.length) :
    merge ours theirs = ours := if_neg h

theorem zipWith_append_assoc (xs ys zs : List (List Owner)) :
    List.zipWith (· ++ ·) (List.zipWith (· ++ ·) xs ys) zs =
      List.zipWith (· ++ ·) xs (List.zipWith (· ++ ·) ys zs) := by
  induction xs generalizing ys zs with
  | nil => rfl
  | cons x xs ih =>
    cases ys with
    | nil => rfl
    | cons y ys =>
      cases zs with
      | nil => rfl
      | cons z zs => simp [ih]

theorem merge_eq_left_iff {ours theirs : List (List Owner)} (h : ours.length = theirs.length) :
    merge ours theirs = ours ↔ ∀ os ∈ theirs, os = [] := by
  rw [merge, if_pos h]
  induction ours generalizing theirs with
  | nil =>
    cases theirs with
    | nil => simp
    | cons => cases h
  | cons x xs ih =>
    cases theirs with
    | nil => cases h
    | cons y ys => simp [ih (Nat.succ.inj h)]

/-- Owners are merged in either order, unless the lists in the middle are too many or too few and the others
agree. -/
theorem merge_merge_eq_iff (xs ys zs : List (List Owner)) :
    merge (merge xs ys) zs = merge xs (merge ys zs) ↔
      (xs.length = zs.length → xs.length ≠ ys.length → ∀ os ∈ zs, os = []) := by
  have hright := length_merge ys zs
  by_cases hxy : xs.length = ys.length
  · refine iff_of_true ?_ fun _ hne => absurd hxy hne
    by_cases hyz : ys.length = zs.length
    · have hxy' : (List.zipWith (· ++ ·) xs ys).length = zs.length := by
        rw [List.length_zipWith]
        omega
      have hyz' : xs.length = (List.zipWith (· ++ ·) ys zs).length := by
        rw [List.length_zipWith]
        omega
      rw [merge, merge, merge, merge, if_pos hxy, if_pos hyz, if_pos hxy', if_pos hyz', zipWith_append_assoc]
    · have hmerged : (merge xs ys).length ≠ zs.length := by
        rw [length_merge]
        omega
      rw [merge_of_length_ne hyz, merge_of_length_ne hmerged]
  · have hmerged : xs.length ≠ (merge ys zs).length := by omega
    rw [merge_of_length_ne hxy, merge_of_length_ne hmerged]
    by_cases hxz : xs.length = zs.length
    · rw [merge_eq_left_iff hxz]
      exact ⟨fun h _ _ => h, fun h => h hxz hxy⟩
    · exact iff_of_true (merge_of_length_ne hxz) fun h => absurd h hxz

variable {p q a : Predicate}

/-- The functor waits for the head of its outermost argument. -/
def Waits (p : Predicate) : Prop := p.head = .argument 0

/-- What depends on the head of an application depends on that of the functor, or on that of the argument if the
functor waits for it. -/
theorem mem_filled_apply (hq : q.raised = false) {os : List Owner} {x : Dependency} :
    x ∈ filled os (apply q a).1.head ↔ x ∈ filled os q.head ∨ q.Waits ∧ x ∈ filled os a.head := by
  unfold apply Waits
  rw [hq, if_neg Bool.false_ne_true]
  rcases hhead : q.head with ws | _ | k <;> simp [filled]

theorem deps_compose (hp : p.raised = false) : (compose p q).2 = filled p.outermost q.head := by
  simp [compose, hp, outermost]

theorem deps_apply (hp : p.raised = false) : (apply p a).2 = filled p.outermost a.head := by
  simp [apply, hp, outermost]

theorem raised_compose (hp : p.raised = false) : (compose p q).1.raised = false := by
  simp [compose, hp]

theorem outermost_compose (hp : p.raised = false) : (compose p q).1.outermost = q.outermost := by
  simp [compose, hp, outermost]

theorem head_apply_compose_eq_iff (hp : p.raised = false) (hq : q.raised = false) :
    (apply (compose p q).1 a).1.head = (apply p (apply q a).1).1.head ↔
      (p.Waits → ∀ k, q.head ≠ .argument (k + 1)) := by
  unfold Waits
  simp only [apply, compose, hp, hq, Bool.false_eq_true, if_false]
  rcases p.head with ws | _ | k
  · simp
  · rcases q.head with ws | _ | k <;> simp
  · simp

/-- Both bracketings mean the same unless the first functor waits for a head that the second takes from a later
argument, or the owners are merged otherwise. -/
theorem apply_compose_eq_iff (hp : p.raised = false) (hq : q.raised = false) :
    (apply (compose p q).1 a).1 = (apply p (apply q a).1).1 ↔
      (p.Waits → ∀ k, q.head ≠ .argument (k + 1)) ∧
      (p.arguments.tail.length = a.arguments.length → p.arguments.tail.length ≠ q.arguments.tail.length →
        ∀ os ∈ a.arguments, os = []) := by
  rw [← head_apply_compose_eq_iff hp hq (a := a), ← merge_merge_eq_iff]
  have hleft : (apply (compose p q).1 a).1.arguments =
      merge (merge p.arguments.tail q.arguments.tail) a.arguments := by
    simp [apply, compose, hp]
  have hright : (apply p (apply q a).1).1.arguments =
      merge p.arguments.tail (merge q.arguments.tail a.arguments) := by
    simp [apply, hp, hq]
  have hraised : (apply (compose p q).1 a).1.raised = (apply p (apply q a).1).1.raised := by
    simp [apply, compose, hp]
  rw [← hleft, ← hright]
  constructor
  · intro h
    rw [h]
    exact ⟨rfl, rfl⟩
  · rintro ⟨hhead, harguments⟩
    generalize (apply (compose p q).1 a).1 = left at hhead harguments hraised
    generalize (apply p (apply q a).1).1 = right at hhead harguments hraised
    cases left
    cases right
    cases hhead
    cases harguments
    cases hraised
    rfl

end Predicate

/-- One derivation in place of another, somewhere inside. -/
inductive Derivation.Replaced (t t' : Derivation) : Derivation → Derivation → Prop where
  | here : Replaced t t' t t'
  | child {d d' : Derivation} {before after : List Derivation} (step : Step) (span : Span) :
      Replaced t t' d d' →
      Replaced t t' (.branch step span (before ++ d :: after)) (.branch step span (before ++ d' :: after))

namespace Grammar

variable {g : Grammar}

/-- The step is made by a rule of the schema. -/
def Uses (g : Grammar) (step : Step) (combinator : Combinator) : Prop :=
  ∃ rule, g.rule? step.rule = some rule ∧ rule.combinator = combinator

/-- The two bracketings of three phrases: composition first, or application first. -/
inductive Rebracketed (g : Grammar) (outer inner arg : Derivation) : Derivation → Derivation → Prop where
  | intro {composed root applied root' : Step} (span span' left right : Span) :
      g.Uses composed .fwdComp → g.Uses root .fwdApp → g.Uses applied .fwdApp → g.Uses root' .fwdApp →
      Rebracketed g outer inner arg (.branch root span [.branch composed left [outer, inner], arg])
        (.branch root' span' [outer, .branch applied right [inner, arg]])

/-- Both bracketings are licensed and have the same category, and no part is made by type-raising. -/
structure Ambiguous (g : Grammar) (outer inner arg t t' : Derivation) : Prop where
  rebracketed : g.Rebracketed outer inner arg t t'
  licensed : g.Licenses (fun _ _ => True) t
  licensed' : g.Licenses (fun _ _ => True) t'
  cat : t.step.cat = t'.step.cat
  outer : (g.decode outer).1.raised = false
  inner : (g.decode inner).1.raised = false
  arg : (g.decode arg).1.raised = false

section

variable {left right : Derivation} {step : Step} {span : Span}

theorem decode_fwdApp (h : g.Uses step .fwdApp) :
    (g.decode (.branch step span [left, right])).1 = (Predicate.apply (g.decode left).1 (g.decode right).1).1 ∧
    (g.decode (.branch step span [left, right])).2 = (g.decode left).2 ++ (g.decode right).2 ++
      (Predicate.apply (g.decode left).1 (g.decode right).1).2 := by
  obtain ⟨rule, hrule, hcombinator⟩ := h
  simp [decode, hrule, Predicate.binary, hcombinator]

theorem decode_fwdComp (h : g.Uses step .fwdComp) :
    (g.decode (.branch step span [left, right])).1 =
      (Predicate.compose (g.decode left).1 (g.decode right).1).1 ∧
    (g.decode (.branch step span [left, right])).2 = (g.decode left).2 ++ (g.decode right).2 ++
      (Predicate.compose (g.decode left).1 (g.decode right).1).2 := by
  obtain ⟨rule, hrule, hcombinator⟩ := h
  simp [decode, hrule, Predicate.binary, hcombinator]

end

/-- Derivations that mean the same: one predicate, and the same dependencies inside. -/
structure MeansAlike (g : Grammar) (t t' : Derivation) : Prop where
  predicate : (g.decode t).1 = (g.decode t').1
  dependencies : ∀ x, x ∈ (g.decode t).2 ↔ x ∈ (g.decode t').2

theorem MeansAlike.replaced {t t' d d' : Derivation} (h : g.MeansAlike t t') (hd : t.Replaced t' d d') :
    g.MeansAlike d d' := by
  induction hd with
  | here => exact h
  | @child d d' before after step span _ ih =>
    obtain ⟨hpredicate, hdependencies⟩ := ih
    match before, after with
    | [], [] =>
      cases hrule : g.rule? step.rule with
      | none => exact ⟨by simp [decode, hrule], by simp [decode, hrule]⟩
      | some rule => exact ⟨by simp [decode, hrule, hpredicate], by simp [decode, hrule, hdependencies]⟩
    | [], [right] =>
      cases hrule : g.rule? step.rule with
      | none => exact ⟨by simp [decode, hrule], by simp [decode, hrule]⟩
      | some rule =>
        exact ⟨by simp [decode, hrule, hpredicate], by simp [decode, hrule, hpredicate, hdependencies]⟩
    | [left], [] =>
      cases hrule : g.rule? step.rule with
      | none => exact ⟨by simp [decode, hrule], by simp [decode, hrule]⟩
      | some rule =>
        exact ⟨by simp [decode, hrule, hpredicate], by simp [decode, hrule, hpredicate, hdependencies]⟩
    -- no rule has more than two children
    | [], _ :: _ :: _ => exact ⟨by simp [decode], by simp [decode]⟩
    | [_], _ :: _ => exact ⟨by simp [decode], by simp [decode]⟩
    | _ :: _ :: _, _ => exact ⟨by simp [decode], by simp [decode]⟩

section

variable {outer inner arg t t' : Derivation}

/-- Application first finds all that composition first finds, and what depends on the head for which the inner
functor waits. -/
theorem Rebracketed.mem_dependencies_iff (hr : g.Rebracketed outer inner arg t t')
    (houter : (g.decode outer).1.raised = false) (hinner : (g.decode inner).1.raised = false)
    (x : Dependency) : x ∈ (g.decode t').2 ↔ x ∈ (g.decode t).2 ∨
      (g.decode inner).1.Waits ∧ x ∈ Predicate.filled (g.decode outer).1.outermost (g.decode arg).1.head := by
  obtain ⟨span, span', left, right, hcomposed, hroot, happlied, hroot'⟩ := hr
  rw [(decode_fwdApp hroot).2, (decode_fwdApp hroot').2, (decode_fwdComp hcomposed).1,
    (decode_fwdComp hcomposed).2, (decode_fwdApp happlied).1, (decode_fwdApp happlied).2,
    Predicate.deps_compose houter, Predicate.deps_apply hinner, Predicate.deps_apply houter,
    Predicate.deps_apply (Predicate.raised_compose houter), Predicate.outermost_compose houter]
  simp only [List.mem_append, Predicate.mem_filled_apply hinner]
  tauto

/-- The two ways to bracket a functor of a category X/Y, an inner one of Y/Z and an argument of Z, neither functor
made by type-raising. The sets of dependencies are the same if and only if nothing is lost by filling Y before the
argument is there for whose head the inner functor waits. Then they are the same again wherever one bracketing
stands for the other, unless the outer functor waits for the head of an inner one that waits for a later argument,
or has as many arguments left as the argument has, but not as many as the inner one. -/
theorem dependencies_rebracketed (hr : g.Rebracketed outer inner arg t t')
    (houter : (g.decode outer).1.raised = false) (hinner : (g.decode inner).1.raised = false) :
    (g.dependencies t = g.dependencies t' ↔ ((g.decode inner).1.Waits →
      ∀ x ∈ Predicate.filled (g.decode outer).1.outermost (g.decode arg).1.head,
        x ∈ (g.dependencies t).toList)) ∧
    (g.dependencies t = g.dependencies t' →
      ((g.decode outer).1.Waits → ∀ k, (g.decode inner).1.head ≠ .argument (k + 1)) →
      ((g.decode outer).1.arguments.tail.length = (g.decode arg).1.arguments.length →
        (g.decode outer).1.arguments.tail.length ≠ (g.decode inner).1.arguments.tail.length →
          ∀ os ∈ (g.decode arg).1.arguments, os = []) →
      ∀ d d', t.Replaced t' d d' → g.dependencies d = g.dependencies d') := by
  have hmem := hr.mem_dependencies_iff houter hinner
  constructor
  · rw [dependencies_eq_iff]
    constructor
    · intro heq hwaits x hx
      exact mem_dependencies.mpr ((heq x).mpr ((hmem x).mpr (.inr ⟨hwaits, hx⟩)))
    · intro hnone x
      rw [hmem]
      constructor
      · exact .inl
      · rintro (hx | ⟨hwaits, hx⟩)
        · exact hx
        · exact mem_dependencies.mp (hnone hwaits x hx)
  · intro heq hheads harguments d d' hd
    have hpredicate : (g.decode t).1 = (g.decode t').1 := by
      obtain ⟨span, span', left, right, hcomposed, hroot, happlied, hroot'⟩ := hr
      rw [(decode_fwdApp hroot).1, (decode_fwdApp hroot').1, (decode_fwdComp hcomposed).1,
        (decode_fwdApp happlied).1]
      exact (Predicate.apply_compose_eq_iff houter hinner).mpr ⟨hheads, harguments⟩
    have halike : g.MeansAlike t t' := ⟨hpredicate, dependencies_eq_iff.mp heq⟩
    exact dependencies_eq_iff.mpr (halike.replaced hd).dependencies

end

end Grammar

namespace Bracketings

/-! A codebook with both bracketings of three groups of words: see old dogs, even since it rains, and give what they
see. The head of a phrase that starts with "since" is that of its second argument. -/

open GrammarBuilder

def clause : Category := .atom "S" none

def noun : Category := .atom "N" none

def verb : Category := .functor clause .forward noun

def adjective : Category := .functor noun .forward noun

def verbModifier : Category := .functor verb .forward verb

def ditransitive : Category := .functor verb .forward noun

def relative : Category := .functor noun .forward verb

def intensifier : Category := .functor adjective .forward adjective

def subordinate : Category := .functor adjective .forward clause

def tree : BankTree :=
  .node clause 0 [
    .node verb 0 [
      .node verb 0 [
        .node verbModifier 0 [.leaf ditransitive ⟨"give", "VB", some ditransitive.text⟩,
          .leaf relative ⟨"what", "WP", some relative.text⟩],
        .node verb 0 [.leaf ditransitive ⟨"give", "VB", some ditransitive.text⟩,
          .node noun 0 [.leaf relative ⟨"what", "WP", some relative.text⟩, .leaf verb ⟨"see", "VB", some verb.text⟩]]],
      .node adjective 0 [
        .node subordinate 0 [.leaf intensifier ⟨"even", "RB", some intensifier.text⟩,
          .leaf subordinate ⟨"since", "IN", some subordinate.text⟩],
        .leaf clause ⟨"rains", "VBZ", some clause.text⟩]],
    .node noun 1 [
      .node adjective 1 [.leaf intensifier ⟨"even", "RB", some intensifier.text⟩,
        .leaf adjective ⟨"old", "JJ", some adjective.text⟩],
      .leaf noun ⟨"dogs", "NNS", some noun.text⟩]]

def categories : Array Category :=
  #[clause, verb, verbModifier, ditransitive, relative, noun, adjective, subordinate, intensifier]

def catIds : Std.HashMap String CatId :=
  (((((((((∅ : Std.HashMap String CatId).insert clause.text 0).insert verb.text 1).insert verbModifier.text 2).insert
    ditransitive.text 3).insert relative.text 4).insert noun.text 5).insert adjective.text 6).insert
      subordinate.text 7).insert intensifier.text 8

def unmarked : GrammarBuilder :=
  { GrammarBuilder.empty with
    categories := categories
    catIds := catIds
    lexical := ⟨[(0, 1), (1, 1), (3, 2), (4, 2), (5, 1), (6, 1), (7, 1), (8, 2)]⟩
    start := ⟨[(0, 1)]⟩
    seenBinary := ⟨[(⟨1, 5, .observed, 0⟩, 1), (⟨1, 6, .observed, 1⟩, 1), (⟨2, 1, .observed, 1⟩, 1),
      (⟨3, 4, .observed, 2⟩, 1), (⟨3, 5, .observed, 1⟩, 1), (⟨4, 1, .observed, 5⟩, 1),
      (⟨6, 5, .observed, 5⟩, 1), (⟨7, 0, .observed, 6⟩, 1), (⟨8, 6, .observed, 6⟩, 1),
      (⟨8, 7, .observed, 7⟩, 1)]⟩
    enumerate := false }

def builder : GrammarBuilder := { unmarked with markups := unmarked.markups ++ [(subordinate, ⟨some 1, []⟩)] }

def rules : List Rule :=
  [⟨0, .lexical, .lexical, 0, .terminal, 1⟩, ⟨1, .lexical, .lexical, 1, .terminal, 1⟩,
    ⟨2, .lexical, .lexical, 3, .terminal, 2⟩, ⟨3, .lexical, .lexical, 4, .terminal, 2⟩,
    ⟨4, .lexical, .lexical, 5, .terminal, 1⟩, ⟨5, .lexical, .lexical, 6, .terminal, 1⟩,
    ⟨6, .lexical, .lexical, 7, .terminal, 1⟩, ⟨7, .lexical, .lexical, 8, .terminal, 2⟩,
    ⟨8, .leftBinary, .fwdApp, 0, .binary 1 5, 1⟩, ⟨9, .leftBinary, .fwdComp, 1, .binary 1 6, 1⟩,
    ⟨10, .rightBinary, .fwdApp, 1, .binary 2 1, 1⟩, ⟨11, .leftBinary, .fwdComp, 2, .binary 3 4, 1⟩,
    ⟨12, .leftBinary, .fwdApp, 1, .binary 3 5, 1⟩, ⟨13, .leftBinary, .fwdApp, 5, .binary 4 1, 1⟩,
    ⟨14, .rightBinary, .fwdApp, 5, .binary 6 5, 1⟩, ⟨15, .leftBinary, .fwdApp, 6, .binary 7 0, 1⟩,
    ⟨16, .rightBinary, .fwdApp, 6, .binary 8 6, 1⟩, ⟨17, .rightBinary, .fwdComp, 7, .binary 8 7, 1⟩,
    ⟨18, .top, .top, 0, .unary 0, 1⟩]

theorem rules_builder : builder.rules = rules := by
  rfl

theorem codebookMarkups_builder : builder.codebookMarkups = [(7, ⟨some 1, []⟩)] := by
  rfl

theorem after_observe : after (observe tree) (GrammarBuilder.empty.setEnumerate false) = unmarked := by
  have htexts : clause.text = "S" ∧ verb.text = "S/N" ∧ noun.text = "N" ∧ adjective.text = "N/N" ∧
      verbModifier.text = "(S/N)/(S/N)" ∧ ditransitive.text = "(S/N)/N" ∧ relative.text = "N/(S/N)" ∧
      subordinate.text = "(N/N)/S" ∧ intensifier.text = "(N/N)/(N/N)" := by decide
  obtain ⟨hclause, hverb, hnoun, hadjective, hmodifier, hditransitive, hrelative, hsubordinate, hintensifier⟩ :=
    htexts
  simp [after, observe, tree, observeNode, exceptT_run_bind, run_intern, intern, run_modify,
    GrammarBuilder.empty, setEnumerate, Std.HashMap.getElem_insert, hclause, hverb, hnoun, hadjective,
    hmodifier, hditransitive, hrelative, hsubordinate, hintensifier, unmarked, catIds]
  exact ⟨rfl, rfl, rfl, rfl⟩

theorem proper_clause : clause.Proper := ⟨.inl ⟨by decide, List.all_eq_true.mp (by decide)⟩, by simp⟩

theorem proper_noun : noun.Proper := ⟨.inl ⟨by decide, List.all_eq_true.mp (by decide)⟩, by simp⟩

theorem proper_verb : verb.Proper := ⟨proper_clause, proper_noun⟩

theorem proper_adjective : adjective.Proper := ⟨proper_noun, proper_noun⟩

theorem proper_relative : relative.Proper := ⟨proper_noun, proper_verb⟩

theorem proper_subordinate : subordinate.Proper := ⟨proper_adjective, proper_clause⟩

theorem read_line : BankTree.read tree.line = .ok tree := by
  have hditransitive : ditransitive.Proper := ⟨proper_verb, proper_noun⟩
  have hintensifier : intensifier.Proper := ⟨proper_adjective, proper_adjective⟩
  have give := BankTree.written_word hditransitive (.ofList "VB".toList (by decide)) (.ofList "give".toList (by decide))
  have what := BankTree.written_word proper_relative (.ofList "WP".toList (by decide))
    (.ofList "what".toList (by decide))
  have see := BankTree.written_word proper_verb (.ofList "VB".toList (by decide)) (.ofList "see".toList (by decide))
  have even := BankTree.written_word hintensifier (.ofList "RB".toList (by decide)) (.ofList "even".toList (by decide))
  have since := BankTree.written_word proper_subordinate (.ofList "IN".toList (by decide))
    (.ofList "since".toList (by decide))
  have rains := BankTree.written_word proper_clause (.ofList "VBZ".toList (by decide))
    (.ofList "rains".toList (by decide))
  have old := BankTree.written_word proper_adjective (.ofList "JJ".toList (by decide))
    (.ofList "old".toList (by decide))
  have dogs := BankTree.written_word proper_noun (.ofList "NNS".toList (by decide)) (.ofList "dogs".toList (by decide))
  have pair {c : Category} {n : Nat} {left right : BankTree} (hc : c.Proper) (hn : n ≤ 1) :=
    @BankTree.written_pair _ _ left right hc (Nat.le_trans hn (by decide : 1 ≤ Text.sizeBound))
  have whatSee := pair proper_noun (Nat.zero_le 1) what see
  have giveWhat := pair (c := verbModifier) ⟨proper_verb, proper_verb⟩ (Nat.zero_le 1) give what
  have giveTwice := pair proper_verb (Nat.zero_le 1) giveWhat (pair proper_verb (Nat.zero_le 1) give whatSee)
  have evenSince := pair proper_subordinate (Nat.zero_le 1) even since
  have phrase := pair proper_verb (Nat.zero_le 1) giveTwice (pair proper_adjective (Nat.zero_le 1) evenSince rains)
  have oldDogs := pair proper_noun (Nat.le_refl 1) (pair proper_adjective (Nat.le_refl 1) even old) dogs
  exact (pair proper_clause (Nat.zero_le 1) phrase oldDogs).read_line

theorem after_setMarkup : after (setMarkup subordinate.text ⟨some 1, []⟩) unmarked = builder := by
  have hread : GrammarBuilder.read subordinate.text = .ok subordinate := by
    rw [GrammarBuilder.read, Category.ofString?, Category.text, String.toList_ofList,
      Category.read_chars proper_subordinate]
    rfl
  have hrun : (readCategory subordinate.text).run unmarked = (.ok subordinate, unmarked) := by
    rw [← hread]
    rfl
  have hknown : unmarked.catIds[subordinate.text]? = some 7 := by
    rw [unmarked, catIds, Std.HashMap.getElem?_insert, if_neg (by decide)]
    exact Std.HashMap.getElem?_insert_self
  have hintern := run_intern_known hknown
  simp only [after, setMarkup, exceptT_run_bind, hrun, hintern]
  rfl

theorem made_builder : Made builder := by
  rw [← after_setMarkup, ← after_observe]
  exact .setMarkup _ _ (.observe read_line (.setEnumerate false .empty))

theorem exists_build : ∃ g, builder.build 0 = .ok g ∧ g.Indexed ∧ g.categories = categories ∧
    g.rules = rules.toArray ∧ g.markups = [(7, ⟨some 1, []⟩)] := by
  obtain ⟨g, hg⟩ : ∃ g, Grammar.ofRules 0 builder.categories builder.rules builder.codebookMarkups = .ok g := by
    rw [rules_builder]
    exact Grammar.exists_ofRules 0 _ (by decide) rfl (by decide) (by decide)
  obtain ⟨_, _, ⟨hcategories, _, hmarkups, _, _⟩, hrules⟩ := Grammar.contents_ofRules hg
  rw [codebookMarkups_builder] at hmarkups
  rw [rules_builder] at hrules
  exact ⟨g, by rw [build, hg]; rfl, Grammar.indexed_ofRules hg, hcategories, by rw [← hrules], hmarkups⟩

/-- A word under the rule of its category. -/
def word (cat : CatId) (rule : RuleId) (position : Nat) : Derivation := .leaf ⟨cat, rule⟩ (.word position)

def pair (cat : CatId) (rule : RuleId) (left right : Derivation) : Derivation :=
  .branch ⟨cat, rule⟩ (left.span.join right.span) [left, right]

def see : Nat → Derivation := word 1 1

def old : Nat → Derivation := word 6 5

def dogs : Nat → Derivation := word 5 4

def even : Nat → Derivation := word 8 7

def since : Nat → Derivation := word 7 6

def rains : Nat → Derivation := word 0 0

def give : Nat → Derivation := word 3 2

def what : Nat → Derivation := word 4 3

def oldComposed : Derivation := pair 0 8 (pair 1 9 (see 0) (old 1)) (dogs 2)

def oldApplied : Derivation := pair 0 8 (see 0) (pair 5 14 (old 1) (dogs 2))

def sinceComposed : Derivation := pair 6 15 (pair 7 17 (even 1) (since 2)) (rains 3)

def sinceApplied : Derivation := pair 6 16 (even 1) (pair 6 15 (since 2) (rains 3))

/-- A modifier of the dogs that are seen. -/
def seen (modifier : Derivation) : Derivation := pair 0 8 (see 0) (pair 5 14 modifier (dogs 4))

def whatComposed : Derivation := pair 1 10 (pair 2 11 (give 0) (what 1)) (see 2)

def whatApplied : Derivation := pair 1 12 (give 0) (pair 5 13 (what 1) (see 2))

def twiceComposed : Derivation := pair 6 15 (pair 7 17 (even 1) (pair 7 17 (even 2) (since 3))) (rains 4)

def twiceApplied : Derivation := pair 6 16 (even 1) (pair 6 15 (pair 7 17 (even 2) (since 3)) (rains 4))

def given (phrase : Derivation) : Derivation := pair 0 8 phrase (dogs 3)

section

variable {g : Grammar} {listed : List Rule} (hg : g.Indexed) (hrules : g.rules = listed.toArray)

include hrules in
theorem rule?_eq (id : RuleId) : g.rule? id = listed[id]? := by
  rw [Grammar.rule?, hrules]
  simp

include hg hrules in
theorem licensed_word {cat : CatId} {id : RuleId} (position : Nat)
    (h : ((listed.filter (Grammar.lexicalFor cat)).map Rule.id).getLast? = some id) :
    g.Licenses (fun _ _ => True) (word cat id position) := by
  refine .leaf trivial ?_
  rw [hg.lexicalRule?, Grammar.idsWhere, hrules]
  exact h

include hrules in
theorem licensed_pair {cat : CatId} {id : RuleId} {left right : Derivation}
    (h : ∃ r, listed[id]? = some r ∧ r.production = .binary left.step.cat right.step.cat ∧ r.result = cat)
    (hmeet : left.span.stop = right.span.start) (hl : g.Licenses (fun _ _ => True) left)
    (hr : g.Licenses (fun _ _ => True) right) : g.Licenses (fun _ _ => True) (pair cat id left right) := by
  refine .binary hl hr hmeet ?_
  rw [← rule?_eq hrules] at h
  exact h

end

section

variable {g : Grammar} (hg : g.Indexed) (hcategories : g.categories = categories)
  (hrules : g.rules = rules.toArray) (hmarkups : g.markups = [(7, ⟨some 1, []⟩)])

include hrules in
theorem ambiguous_of {outer inner arg : Derivation} {cat composed applied : CatId}
    {root root' composedRule appliedRule : RuleId}
    (hcomposed : ∃ r, rules[composedRule]? = some r ∧ r.production = .binary outer.step.cat inner.step.cat ∧
      r.result = composed ∧ r.combinator = .fwdComp)
    (hroot : ∃ r, rules[root]? = some r ∧ r.production = .binary composed arg.step.cat ∧ r.result = cat ∧
      r.combinator = .fwdApp)
    (happlied : ∃ r, rules[appliedRule]? = some r ∧ r.production = .binary inner.step.cat arg.step.cat ∧
      r.result = applied ∧ r.combinator = .fwdApp)
    (hroot' : ∃ r, rules[root']? = some r ∧ r.production = .binary outer.step.cat applied ∧ r.result = cat ∧
      r.combinator = .fwdApp)
    (hmeet : outer.span.stop = inner.span.start) (hmeet' : inner.span.stop = arg.span.start)
    (houter : g.Licenses (fun _ _ => True) outer) (hinner : g.Licenses (fun _ _ => True) inner)
    (harg : g.Licenses (fun _ _ => True) arg) (hraised : (g.decode outer).1.raised = false)
    (hraised' : (g.decode inner).1.raised = false) (hraised'' : (g.decode arg).1.raised = false) :
    g.Ambiguous outer inner arg (pair cat root (pair composed composedRule outer inner) arg)
      (pair cat root' outer (pair applied appliedRule inner arg)) := by
  have huses : ∀ {cat : CatId} {id : RuleId} {combinator : Combinator} (r : Rule), rules[id]? = some r →
      r.combinator = combinator → g.Uses ⟨cat, id⟩ combinator :=
    fun {_ id _} r hr hcombinator => ⟨r, (rule?_eq hrules id).trans hr, hcombinator⟩
  obtain ⟨r₁, hr₁, hp₁, hresult₁, hcombinator₁⟩ := hcomposed
  obtain ⟨r₂, hr₂, hp₂, hresult₂, hcombinator₂⟩ := hroot
  obtain ⟨r₃, hr₃, hp₃, hresult₃, hcombinator₃⟩ := happlied
  obtain ⟨r₄, hr₄, hp₄, hresult₄, hcombinator₄⟩ := hroot'
  exact {
    rebracketed := .intro _ _ _ _ (huses r₁ hr₁ hcombinator₁) (huses r₂ hr₂ hcombinator₂)
      (huses r₃ hr₃ hcombinator₃) (huses r₄ hr₄ hcombinator₄)
    licensed := licensed_pair hrules ⟨r₂, hr₂, hp₂, hresult₂⟩ hmeet'
      (licensed_pair hrules ⟨r₁, hr₁, hp₁, hresult₁⟩ hmeet houter hinner) harg
    licensed' := licensed_pair hrules ⟨r₄, hr₄, hp₄, hresult₄⟩ hmeet houter
      (licensed_pair hrules ⟨r₃, hr₃, hp₃, hresult₃⟩ hmeet' hinner harg)
    cat := rfl
    outer := hraised
    inner := hraised'
    arg := hraised'' }

include hg hrules

theorem ambiguous_old : g.Ambiguous (see 0) (old 1) (dogs 2) oldComposed oldApplied :=
  ambiguous_of hrules ⟨_, rfl, rfl, rfl, rfl⟩ ⟨_, rfl, rfl, rfl, rfl⟩ ⟨_, rfl, rfl, rfl, rfl⟩
    ⟨_, rfl, rfl, rfl, rfl⟩ rfl rfl (licensed_word hg hrules 0 rfl) (licensed_word hg hrules 1 rfl)
    (licensed_word hg hrules 2 rfl) rfl rfl rfl

theorem ambiguous_since : g.Ambiguous (even 1) (since 2) (rains 3) sinceComposed sinceApplied :=
  ambiguous_of hrules ⟨_, rfl, rfl, rfl, rfl⟩ ⟨_, rfl, rfl, rfl, rfl⟩ ⟨_, rfl, rfl, rfl, rfl⟩
    ⟨_, rfl, rfl, rfl, rfl⟩ rfl rfl (licensed_word hg hrules 1 rfl) (licensed_word hg hrules 2 rfl)
    (licensed_word hg hrules 3 rfl) rfl rfl rfl

theorem ambiguous_what : g.Ambiguous (give 0) (what 1) (see 2) whatComposed whatApplied :=
  ambiguous_of hrules ⟨_, rfl, rfl, rfl, rfl⟩ ⟨_, rfl, rfl, rfl, rfl⟩ ⟨_, rfl, rfl, rfl, rfl⟩
    ⟨_, rfl, rfl, rfl, rfl⟩ rfl rfl (licensed_word hg hrules 0 rfl) (licensed_word hg hrules 1 rfl)
    (licensed_word hg hrules 2 rfl) rfl rfl rfl

theorem ambiguous_twice : g.Ambiguous (even 1) (pair 7 17 (even 2) (since 3)) (rains 4) twiceComposed
    twiceApplied := by
  have hinner : g.Licenses (fun _ _ => True) (pair 7 17 (even 2) (since 3)) :=
    licensed_pair hrules ⟨_, rfl, rfl, rfl⟩ rfl (licensed_word hg hrules 2 rfl) (licensed_word hg hrules 3 rfl)
  have hraised : (g.decode (pair 7 17 (even 2) (since 3))).1.raised = false := by
    have huses : g.Uses ⟨7, 17⟩ .fwdComp := ⟨_, (rule?_eq hrules 17).trans rfl, rfl⟩
    rw [pair, (Grammar.decode_fwdComp huses).1]
    exact Predicate.raised_compose rfl
  exact ambiguous_of hrules ⟨_, rfl, rfl, rfl, rfl⟩ ⟨_, rfl, rfl, rfl, rfl⟩ ⟨_, rfl, rfl, rfl, rfl⟩
    ⟨_, rfl, rfl, rfl, rfl⟩ rfl rfl (licensed_word hg hrules 1 rfl) hinner (licensed_word hg hrules 4 rfl) rfl
    hraised rfl

theorem licensed_seen {t : Derivation} (h : g.Licenses (fun _ _ => True) t) (hcat : t.step.cat = 6)
    (hspan : t.span = ⟨1, 4⟩) : g.Licenses (fun _ _ => True) (seen t) := by
  refine licensed_pair hrules ⟨_, rfl, rfl, rfl⟩ ?_ (licensed_word hg hrules 0 rfl)
    (licensed_pair hrules ⟨_, rfl, ?_, rfl⟩ ?_ h (licensed_word hg hrules 4 rfl))
  · rw [pair, Derivation.span_branch, hspan]
    rfl
  · rw [hcat]
    rfl
  · rw [hspan]
    rfl

theorem licensed_given {t : Derivation} (h : g.Licenses (fun _ _ => True) t) (hcat : t.step.cat = 1)
    (hspan : t.span = ⟨0, 3⟩) : g.Licenses (fun _ _ => True) (given t) := by
  refine licensed_pair hrules ⟨_, rfl, ?_, rfl⟩ ?_ h (licensed_word hg hrules 3 rfl)
  · rw [hcat]
    rfl
  · rw [hspan]
    rfl

omit hg
include hcategories hmarkups

theorem decode_old : (g.decode oldComposed).2 = [⟨1, 2, 6, 1⟩] ∧
    (g.decode oldApplied).2 = [⟨1, 2, 6, 1⟩, ⟨0, 2, 1, 1⟩] := by
  simp only [oldComposed, oldApplied, see, old, dogs, pair, word, Grammar.decode, rule?_eq hrules,
    Predicate.lexical, Grammar.arityOf, Grammar.markup, Grammar.category?, hcategories, hmarkups]
  exact ⟨rfl, rfl⟩

/-- The composition of "even" and "since" has no head. -/
theorem decode_since : (g.decode (seen sinceComposed)).2 = [⟨2, 3, 7, 2⟩, ⟨2, 4, 7, 1⟩] ∧
    (g.decode (seen sinceApplied)).2 = [⟨2, 3, 7, 2⟩, ⟨2, 4, 7, 1⟩, ⟨0, 4, 1, 1⟩] := by
  simp only [seen, sinceComposed, sinceApplied, even, since, rains, see, dogs, pair, word, Grammar.decode,
    rule?_eq hrules, Predicate.lexical, Grammar.arityOf, Grammar.markup, Grammar.category?, hcategories, hmarkups]
  exact ⟨rfl, rfl⟩

theorem decode_what : (g.decode (given whatComposed)).2 =
      [⟨0, 1, 3, 2⟩, ⟨1, 2, 4, 1⟩, ⟨0, 3, 3, 1⟩, ⟨2, 3, 1, 1⟩] ∧
    (g.decode (given whatApplied)).2 = [⟨1, 2, 4, 1⟩, ⟨0, 1, 3, 2⟩, ⟨0, 3, 3, 1⟩] := by
  simp only [given, whatComposed, whatApplied, give, what, see, dogs, pair, word, Grammar.decode,
    rule?_eq hrules, Predicate.lexical, Grammar.arityOf, Grammar.markup, Grammar.category?, hcategories, hmarkups]
  exact ⟨rfl, rfl⟩

omit hrules in
theorem decode_what_word : (g.decode (what 1)).1.head = .words [1] := by
  simp only [what, word, Grammar.decode, Predicate.lexical, Grammar.arityOf, Grammar.markup, Grammar.category?,
    hcategories, hmarkups]
  rfl

theorem decode_twice : (g.decode (even 1)).1 = ⟨.argument 0, [[⟨1, 8, 2⟩], []], false⟩ ∧
    (g.decode (pair 7 17 (even 2) (since 3))).1 = ⟨.words [], [[⟨3, 7, 2⟩], [⟨3, 7, 1⟩]], false⟩ ∧
    (g.decode (rains 4)).1 = ⟨.words [4], [], false⟩ := by
  simp only [even, since, rains, pair, word, Grammar.decode, rule?_eq hrules, Predicate.lexical, Grammar.arityOf,
    Grammar.markup, Grammar.category?, hcategories, hmarkups]
  exact ⟨rfl, rfl, rfl⟩

end

/-- The head of "what" is known in both bracketings; and the second "even" and "since" are composed either way. -/
theorem dependencies_rebracketed_twice : ∃ g, builder.build 0 = .ok g ∧
    g.dependencies whatComposed = g.dependencies whatApplied ∧
    g.Ambiguous (even 1) (pair 7 17 (even 2) (since 3)) (rains 4) twiceComposed twiceApplied ∧
    ∀ d d', twiceComposed.Replaced twiceApplied d d' → g.dependencies d = g.dependencies d' := by
  obtain ⟨g, hbuild, hg, hcategories, hrules, hmarkups⟩ := exists_build
  have hwhat := ambiguous_what hg hrules
  have htwice := ambiguous_twice hg hrules
  have hhead := decode_what_word hcategories hmarkups
  obtain ⟨houter, hinner, harg⟩ := decode_twice hcategories hrules hmarkups
  obtain ⟨hwhatSame, _⟩ := Grammar.dependencies_rebracketed hwhat.rebracketed hwhat.outer hwhat.inner
  obtain ⟨htwiceSame, hreplaced⟩ :=
    Grammar.dependencies_rebracketed htwice.rebracketed htwice.outer htwice.inner
  refine ⟨g, hbuild, hwhatSame.mpr fun hwaits => ?_, htwice,
    hreplaced (htwiceSame.mpr fun hwaits => ?_) (fun _ k => ?_) fun hlength => ?_⟩
  · rw [Predicate.Waits, hhead] at hwaits
    cases hwaits
  · rw [Predicate.Waits, hinner] at hwaits
    cases hwaits
  · rw [hinner]
    simp
  · rw [houter, harg] at hlength
    cases hlength

theorem dependencies_ne {g : Grammar} {t t' : Derivation} (x : Dependency)
    (h : ¬(x ∈ (g.decode t).2 ↔ x ∈ (g.decode t').2)) : g.dependencies t ≠ g.dependencies t' :=
  fun heq => h (Grammar.dependencies_eq_iff.mp heq x)

theorem dependencies_differ : Made builder ∧ ∃ g, builder.build 0 = .ok g ∧
    g.Ambiguous (see 0) (old 1) (dogs 2) oldComposed oldApplied ∧
    g.dependencies oldComposed ≠ g.dependencies oldApplied ∧
    g.Ambiguous (even 1) (since 2) (rains 3) sinceComposed sinceApplied ∧
    g.Licenses (fun _ _ => True) (seen sinceComposed) ∧ g.Licenses (fun _ _ => True) (seen sinceApplied) ∧
    g.dependencies (seen sinceComposed) ≠ g.dependencies (seen sinceApplied) ∧
    g.Ambiguous (give 0) (what 1) (see 2) whatComposed whatApplied ∧
    g.Licenses (fun _ _ => True) (given whatComposed) ∧ g.Licenses (fun _ _ => True) (given whatApplied) ∧
    g.dependencies (given whatComposed) ≠ g.dependencies (given whatApplied) := by
  obtain ⟨g, hbuild, hg, hcategories, hrules, hmarkups⟩ := exists_build
  obtain ⟨hold, hold'⟩ := decode_old hcategories hrules hmarkups
  obtain ⟨hsince, hsince'⟩ := decode_since hcategories hrules hmarkups
  obtain ⟨hwhat, hwhat'⟩ := decode_what hcategories hrules hmarkups
  have hambiguousSince := ambiguous_since hg hrules
  have hambiguousWhat := ambiguous_what hg hrules
  refine ⟨made_builder, g, hbuild, ambiguous_old hg hrules, dependencies_ne ⟨0, 2, 1, 1⟩ ?_, hambiguousSince,
    licensed_seen hg hrules hambiguousSince.licensed rfl rfl,
    licensed_seen hg hrules hambiguousSince.licensed' rfl rfl, dependencies_ne ⟨0, 4, 1, 1⟩ ?_, hambiguousWhat,
    licensed_given hg hrules hambiguousWhat.licensed rfl rfl,
    licensed_given hg hrules hambiguousWhat.licensed' rfl rfl, dependencies_ne ⟨2, 3, 1, 1⟩ ?_⟩
  · rw [hold, hold']
    decide
  · rw [hsince, hsince']
    decide
  · rw [hwhat, hwhat']
    decide

end Bracketings

end Categorial
