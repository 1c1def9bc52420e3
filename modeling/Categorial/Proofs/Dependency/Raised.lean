import Categorial.Proofs.Dependency.Arguments
import Categorial.Proofs.Dependency.Grounded
set_option autoImplicit false

/-!
A functor takes its argument, or the argument is raised and takes the functor: the phrase means the same either way.
The raised argument is handed to the functor after all, and an atomic category has no arguments of its own that
raising could lose.
-/

namespace Categorial

namespace Predicate

theorem merge_nil (ours : List (List Owner)) : merge ours [] = ours := by
  cases ours with
  | nil => rfl
  | cons => exact merge_of_length_ne (by simp)

theorem apply_raise {p q : Predicate} {ws : List Nat} (hp : p.raised = false) (hhead : q.head = .words ws)
    (harguments : q.arguments = []) (arity : Nat) : apply (unary.raise arity q) p = apply p q := by
  have hraise : unary.raise arity q = ⟨q.head, vacant arity, true⟩ := by rw [unary.raise, hhead]
  rw [hraise, apply, if_pos rfl, apply, hp, if_neg Bool.false_ne_true, harguments, merge_nil, consume,
    List.eraseIdx_zero, List.head?_eq_getElem?]
  rcases p.head with _ | _ | _ <;> rfl

variable {p : Predicate} {b : Category.Binding} {x y actual : Category} {slash : Slash}

/-- A functor that takes an atom is not raised, since what a raised one takes is a functor. -/
theorem Fits.direct (hp : p.Fits (.functor x slash y)) (hmatch : y.matches? actual = some b)
    (hatom : actual.arity = 0) : p.raised = false := by
  rw [← Bool.not_eq_true]
  intro hraised
  obtain ⟨-, harity⟩ := Category.arity_of_isRaised (hp.isRaised rfl hraised)
  obtain ⟨harity', -⟩ := Category.arity_of_unify hmatch
  omega

end Predicate

theorem Derivation.Replaced.part {t t' d d' : Derivation} (h : t.Replaced t' d d') : t.Part d := by
  induction h with
  | here => exact .whole
  | child _ _ _ ih => exact .child (List.mem_append_right _ (List.mem_cons_self ..)) ih

namespace Grammar

variable {g : Grammar}

/-- A functor with its argument, and the same with the argument raised. -/
inductive RaisedOver (g : Grammar) (functor arg : Derivation) : Derivation → Derivation → Prop where
  | forward {applied raised root : Step} (span span' below : Span) :
      g.Uses applied .bwdApp → g.Uses raised .fwdRaise → g.Uses root .fwdApp →
      RaisedOver g functor arg (.branch applied span [arg, functor])
        (.branch root span' [.branch raised below [arg], functor])
  | backward {applied raised root : Step} (span span' below : Span) :
      g.Uses applied .fwdApp → g.Uses raised .bwdRaise → g.Uses root .bwdApp →
      RaisedOver g functor arg (.branch applied span [functor, arg])
        (.branch root span' [functor, .branch raised below [arg]])

section

variable {left right child : Derivation} {step : Step} {span : Span}

theorem decode_bwdApp (h : g.Uses step .bwdApp) :
    (g.decode (.branch step span [left, right])).1 = (Predicate.apply (g.decode right).1 (g.decode left).1).1 ∧
    (g.decode (.branch step span [left, right])).2 = (g.decode left).2 ++ (g.decode right).2 ++
      (Predicate.apply (g.decode right).1 (g.decode left).1).2 := by
  obtain ⟨rule, hrule, hcombinator⟩ := h
  simp [decode, hrule, Predicate.binary, hcombinator]

theorem decode_raise (h : g.Uses step .fwdRaise ∨ g.Uses step .bwdRaise) :
    (g.decode (.branch step span [child])).1 =
      Predicate.unary.raise (g.arityOf step.cat) (g.decode child).1 ∧
    (g.decode (.branch step span [child])).2 = (g.decode child).2 := by
  obtain ⟨rule, hrule, hcombinator⟩ | ⟨rule, hrule, hcombinator⟩ := h
  all_goals simp [decode, hrule, Predicate.unary, hcombinator]

end

/-- Where applying the raised argument is applying the functor, both phrases are decoded alike. -/
theorem RaisedOver.decode_eq {functor arg t t' : Derivation} (hr : g.RaisedOver functor arg t t')
    (happly : ∀ arity, Predicate.apply (Predicate.unary.raise arity (g.decode arg).1) (g.decode functor).1 =
      Predicate.apply (g.decode functor).1 (g.decode arg).1) : g.decode t = g.decode t' := by
  cases hr with
  | forward _ _ _ happlied hraised hroot =>
    refine Prod.ext ?_ ?_
    · rw [(decode_bwdApp happlied).1, (decode_fwdApp hroot).1, (decode_raise (.inl hraised)).1, happly]
    · rw [(decode_bwdApp happlied).2, (decode_fwdApp hroot).2, (decode_raise (.inl hraised)).1,
        (decode_raise (.inl hraised)).2, happly]
  | backward _ _ _ happlied hraised hroot =>
    refine Prod.ext ?_ ?_
    · rw [(decode_fwdApp happlied).1, (decode_bwdApp hroot).1, (decode_raise (.inr hraised)).1, happly]
    · rw [(decode_fwdApp happlied).2, (decode_bwdApp hroot).2, (decode_raise (.inr hraised)).1,
        (decode_raise (.inr hraised)).2, happly]

end Grammar

namespace GrammarBuilder

variable {b : GrammarBuilder} {gid : Nat} {g : Grammar} {functor arg t t' : Derivation}

theorem instance_of_uses (hb : b.Made) (h : b.build gid = .ok g) {step : Categorial.Step} {k : Combinator}
    (huses : g.Uses step k) (hk : k ≠ .observed) {x y z : CatId} (hrule : g.BinaryRule step.rule x y z) :
    ∃ left right result, g.category? x = some left ∧ g.category? y = some right ∧
      k.result? left right = some result := by
  obtain ⟨r, hr, hproduction, -⟩ := hrule
  obtain ⟨r', hr', rfl⟩ := huses
  cases hr.symm.trans hr'
  obtain ⟨left, right, result, hleft, hright, -, hinstance⟩ := derives_of_binaryRule hb h hr hproduction
  exact ⟨left, right, result, hleft, hright, hinstance hk⟩

/-- The functor of a licensed phrase is licensed, and its category takes that of the argument. -/
theorem exists_functor (hb : b.Made) (h : b.build gid = .ok g) (hr : g.RaisedOver functor arg t t')
    {allowed : Nat → CatId → Prop} (ht : g.Licenses allowed t) {actual : Category}
    (hactual : g.category? arg.step.cat = some actual) :
    g.Licenses allowed functor ∧ g.Licenses allowed arg ∧ ∃ x slash y binding,
      g.category? functor.step.cat = some (.functor x slash y) ∧ y.matches? actual = some binding := by
  cases hr with
  | forward _ _ _ happlied _ _ =>
    cases ht with
    | binary harg hfunctor _ hrule =>
      obtain ⟨left, right, result, hleft, hright, hinstance⟩ := instance_of_uses hb h happlied nofun hrule
      cases hactual.symm.trans hleft
      cases Combinator.combines_of_result? hinstance with
      | bwdApp hmatch => exact ⟨hfunctor, harg, _, _, _, _, hright, hmatch⟩
  | backward _ _ _ happlied _ _ =>
    cases ht with
    | binary hfunctor harg _ hrule =>
      obtain ⟨left, right, result, hleft, hright, hinstance⟩ := instance_of_uses hb h happlied nofun hrule
      cases hactual.symm.trans hright
      cases Combinator.combines_of_result? hinstance with
      | fwdApp hmatch => exact ⟨hfunctor, harg, _, _, _, _, hleft, hmatch⟩

/-- Raising is not seen in the dependencies. If a functor takes an argument of an atomic category whose head is known,
somewhere in a licensed derivation, then the derivation in which the argument is raised over the functor means the
same, and has the same dependencies. The trees behind the codebook are such as are read from lines. -/
theorem dependencies_raised (hb : b.Made) (h : b.build gid = .ok g) (hr : g.RaisedOver functor arg t t')
    {d d' : Derivation} (hd : t.Replaced t' d d') (hlicensed : g.Licenses (fun _ _ => True) d) {base : String}
    {feature : Option String} (hatom : g.category? arg.step.cat = some (.atom base feature)) {ws : List Nat}
    (hhead : (g.decode arg).1.head = .words ws) :
    (g.decode d).1 = (g.decode d').1 ∧ g.dependencies d = g.dependencies d' := by
  obtain ⟨ht, -⟩ := hlicensed.part hd.part
  obtain ⟨hfunctor, harg, x, slash, y, binding, hcat, hmatch⟩ := exists_functor hb h hr ht hatom
  have hdirect := (fits_decode hb h hfunctor hcat).direct hmatch rfl
  have harguments : (g.decode arg).1.arguments = [] :=
    List.length_eq_zero_iff.mp ((fits_decode hb h harg hatom).length_eq rfl)
  have hdecode := hr.decode_eq fun arity => Predicate.apply_raise hdirect hhead harguments arity
  have halike : g.MeansAlike t t' := ⟨by rw [hdecode], fun x => by rw [hdecode]⟩
  exact ⟨(halike.replaced hd).predicate, Grammar.dependencies_eq_iff.mpr (halike.replaced hd).dependencies⟩

end GrammarBuilder

namespace Subjects

/-! A codebook of subjects that are raised and coordinated, in either order, and of a verb that reports clauses. -/

open GrammarBuilder

open Bracketings (word pair rule?_eq licensed_word licensed_pair)

def clause : Category := .atom "S" none

def noun : Category := .atom "NP" none

def verb : Category := .functor clause .backward noun

def raised : Category := .functor clause .forward verb

def conjunction : Category := .atom "conj" none

def report : Category := .functor verb .forward clause

def tree : BankTree :=
  .node clause 1 [
    .node raised 0 [
      .node raised 0 [.leaf noun ⟨"dogs", "NNS", some noun.text⟩],
      .node (.conj raised) 1 [
        .leaf conjunction ⟨"and", "CC", some conjunction.text⟩,
        .node raised 0 [
          .node noun 0 [
            .leaf noun ⟨"cats", "NNS", some noun.text⟩,
            .node (.conj noun) 1
              [.leaf conjunction ⟨"and", "CC", some conjunction.text⟩, .leaf noun ⟨"dogs", "NNS", some noun.text⟩]]]]],
    .node verb 0 [
      .leaf report ⟨"say", "VBP", some report.text⟩,
      .node clause 1 [.leaf noun ⟨"dogs", "NNS", some noun.text⟩, .leaf verb ⟨"run", "VBP", some verb.text⟩]]]

def categories : Array Category :=
  #[clause, raised, noun, .conj raised, conjunction, .conj noun, verb, report]

def catIds : Std.HashMap String CatId :=
  ((((((((∅ : Std.HashMap String CatId).insert clause.text 0).insert raised.text 1).insert noun.text 2).insert
    raised.conj.text 3).insert conjunction.text 4).insert noun.conj.text 5).insert verb.text 6).insert report.text 7

def builder : GrammarBuilder :=
  { GrammarBuilder.empty with
    categories := categories
    catIds := catIds
    lexical := ⟨[(2, 4), (4, 2), (6, 1), (7, 1)]⟩
    start := ⟨[(0, 1)]⟩
    seenBinary := ⟨[(⟨1, 3, .observed, 1⟩, 1), (⟨1, 6, .observed, 0⟩, 1), (⟨2, 5, .observed, 2⟩, 1),
      (⟨2, 6, .observed, 0⟩, 1), (⟨4, 1, .observed, 3⟩, 1), (⟨4, 2, .observed, 5⟩, 1), (⟨7, 0, .observed, 6⟩, 1)]⟩
    seenUnary := ⟨[(⟨2, .fwdRaise, 1⟩, 2)]⟩
    enumerate := false }

def rules : List Rule :=
  [⟨0, .lexical, .lexical, 2, .terminal, 4⟩, ⟨1, .lexical, .lexical, 4, .terminal, 2⟩,
    ⟨2, .lexical, .lexical, 6, .terminal, 1⟩, ⟨3, .lexical, .lexical, 7, .terminal, 1⟩,
    ⟨4, .leftBinary, .coord, 1, .binary 1 3, 1⟩, ⟨5, .rightBinary, .fwdApp, 0, .binary 1 6, 1⟩,
    ⟨6, .leftBinary, .coord, 2, .binary 2 5, 1⟩, ⟨7, .rightBinary, .bwdApp, 0, .binary 2 6, 1⟩,
    ⟨8, .rightBinary, .conj, 3, .binary 4 1, 1⟩, ⟨9, .rightBinary, .conj, 5, .binary 4 2, 1⟩,
    ⟨10, .leftBinary, .fwdApp, 6, .binary 7 0, 1⟩, ⟨11, .unary, .fwdRaise, 1, .unary 2, 2⟩,
    ⟨12, .top, .top, 0, .unary 0, 1⟩]

theorem rules_builder : builder.rules = rules := by
  rfl

theorem codebookMarkups_builder : builder.codebookMarkups = [] := by
  rfl

theorem after_observe : after (observe tree) (GrammarBuilder.empty.setEnumerate false) = builder := by
  have htexts : clause.text = "S" ∧ raised.text = "S/(S\\NP)" ∧ noun.text = "NP" ∧
      raised.conj.text = "(S/(S\\NP))[conj]" ∧ conjunction.text = "conj" ∧ noun.conj.text = "NP[conj]" ∧
      verb.text = "S\\NP" ∧ report.text = "(S\\NP)/S" := by decide
  obtain ⟨hclause, hraised, hnoun, hraisedConj, hconjunction, hnounConj, hverb, hreport⟩ := htexts
  simp [after, observe, tree, observeNode, exceptT_run_bind, run_intern, intern, run_modify,
    GrammarBuilder.empty, setEnumerate, Std.HashMap.getElem_insert, hclause, hraised, hnoun, hraisedConj,
    hconjunction, hnounConj, hverb, hreport, builder, catIds]
  exact ⟨rfl, rfl, rfl, rfl, rfl⟩

theorem read_line : BankTree.read tree.line = .ok tree := by
  have hclause : clause.Proper := ⟨.inl ⟨by decide, List.all_eq_true.mp (by decide)⟩, by simp⟩
  have hnoun : noun.Proper := ⟨.inl ⟨by decide, List.all_eq_true.mp (by decide)⟩, by simp⟩
  have hconjunction : conjunction.Proper := ⟨.inl ⟨by decide, List.all_eq_true.mp (by decide)⟩, by simp⟩
  have hverb : verb.Proper := ⟨hclause, hnoun⟩
  have hraised : raised.Proper := ⟨hclause, hverb⟩
  have dogs := BankTree.written_word hnoun (.ofList "NNS".toList (by decide)) (.ofList "dogs".toList (by decide))
  have cats := BankTree.written_word hnoun (.ofList "NNS".toList (by decide)) (.ofList "cats".toList (by decide))
  have and := BankTree.written_word hconjunction (.ofList "CC".toList (by decide)) (.ofList "and".toList (by decide))
  have say := BankTree.written_word (c := report) ⟨hverb, hclause⟩ (.ofList "VBP".toList (by decide))
    (.ofList "say".toList (by decide))
  have run := BankTree.written_word hverb (.ofList "VBP".toList (by decide)) (.ofList "run".toList (by decide))
  have pair {c : Category} {n : Nat} {left right : BankTree} (hc : c.Proper) (hn : n ≤ 1) :=
    @BankTree.written_pair _ _ left right hc (Nat.le_trans hn (by decide : 1 ≤ Text.sizeBound))
  have raise {t : BankTree} (ht : BankTree.Written t) : BankTree.Written (.node raised 0 [t]) :=
    BankTree.written_node hraised (Nat.zero_le _) (by simp [Text.sizeBound]) rfl (List.cons_ne_nil _ _)
      (List.forall_mem_singleton.mpr ht)
  have nouns := pair hnoun (Nat.zero_le 1) cats (pair (c := .conj noun) hnoun (Nat.le_refl 1) and dogs)
  have behind := pair (c := .conj raised) hraised (Nat.le_refl 1) and (raise nouns)
  have subjects := pair hraised (Nat.zero_le 1) (raise dogs) behind
  have reports := pair hverb (Nat.zero_le 1) say (pair hclause (Nat.le_refl 1) dogs run)
  exact (pair hclause (Nat.le_refl 1) subjects reports).read_line

theorem made_builder : Made builder := by
  rw [← after_observe]
  exact .observe read_line (.setEnumerate false .empty)

theorem exists_build : ∃ g, builder.build 0 = .ok g ∧ g.Indexed ∧ g.categories = categories ∧
    g.rules = rules.toArray ∧ g.markups = [] := by
  obtain ⟨g, hg⟩ : ∃ g, Grammar.ofRules 0 builder.categories builder.rules builder.codebookMarkups = .ok g := by
    rw [rules_builder]
    exact Grammar.exists_ofRules 0 _ (by decide) rfl (by decide) (by decide)
  obtain ⟨_, _, ⟨hcategories, _, hmarkups, _, _⟩, hrules⟩ := Grammar.contents_ofRules hg
  rw [codebookMarkups_builder] at hmarkups
  rw [rules_builder] at hrules
  exact ⟨g, by rw [build, hg]; rfl, Grammar.indexed_ofRules hg, hcategories, by rw [← hrules], hmarkups⟩

def subject : Nat → Derivation := word 2 0

def run : Nat → Derivation := word 6 2

/-- A subject made into what takes a verb. -/
def raising (t : Derivation) : Derivation := .branch ⟨1, 11⟩ t.span [t]

/-- Dogs say what the clause says. -/
def reported (t : Derivation) : Derivation := pair 0 7 (subject 0) (pair 6 10 (word 7 3 1) t)

def catsRun : Derivation := pair 0 7 (subject 2) (run 3)

def catsRaised : Derivation := pair 0 5 (raising (subject 2)) (run 3)

theorem replaced_right {t t' d d' left : Derivation} {cat : CatId} {id : RuleId} (h : t.Replaced t' d d')
    (hspan : d.span = d'.span) : t.Replaced t' (pair cat id left d) (pair cat id left d') := by
  rw [pair, pair, hspan]
  exact @Derivation.Replaced.child t t' d d' [left] [] _ _ h

section

variable {g : Grammar} (hg : g.Indexed) (hcategories : g.categories = categories)
  (hrules : g.rules = rules.toArray) (hmarkups : g.markups = [])

include hrules in
theorem licensed_raising {t : Derivation} (hcat : t.step.cat = 2) (h : g.Licenses (fun _ _ => True) t) :
    g.Licenses (fun _ _ => True) (raising t) :=
  .unary h ⟨_, rule?_eq hrules 11, rfl, by rw [hcat], rfl⟩

include hrules in
theorem raisedOver_cats : g.RaisedOver (run 3) (subject 2) catsRun catsRaised :=
  .forward _ _ _ ⟨_, rule?_eq hrules 7, rfl⟩ ⟨_, rule?_eq hrules 11, rfl⟩ ⟨_, rule?_eq hrules 5, rfl⟩

include hg hrules in
theorem licensed_reported {t : Derivation} (hcat : t.step.cat = 0) (hspan : t.span = ⟨2, 4⟩)
    (h : g.Licenses (fun _ _ => True) t) : g.Licenses (fun _ _ => True) (reported t) := by
  refine licensed_pair hrules ⟨_, rfl, rfl, rfl⟩ ?_ (licensed_word hg hrules 0 rfl)
    (licensed_pair hrules ⟨_, rfl, ?_, rfl⟩ ?_ (licensed_word hg hrules 1 rfl) h)
  · rfl
  · rw [hcat]
    rfl
  · rw [hspan]
    rfl

include hcategories hrules hmarkups in
theorem decode_reported : (g.decode (reported catsRun)).2 = [⟨3, 2, 6, 1⟩, ⟨1, 3, 7, 2⟩, ⟨1, 0, 7, 1⟩] := by
  simp only [reported, catsRun, subject, run, pair, word, Grammar.decode, rule?_eq hrules, Predicate.lexical,
    Grammar.arityOf, Grammar.markup, Grammar.category?, hcategories, hmarkups]
  rfl

end

theorem dependencies_raised_reported : Made builder ∧ ∃ g, builder.build 0 = .ok g ∧
    g.Licenses (fun _ _ => True) (reported catsRun) ∧ g.Licenses (fun _ _ => True) (reported catsRaised) ∧
    g.RaisedOver (run 3) (subject 2) catsRun catsRaised ∧
    catsRun.Replaced catsRaised (reported catsRun) (reported catsRaised) ∧
    ⟨3, 2, 6, 1⟩ ∈ (g.dependencies (reported catsRun)).toList ∧
    g.dependencies (reported catsRun) = g.dependencies (reported catsRaised) := by
  obtain ⟨g, hbuild, hg, hcategories, hrules, hmarkups⟩ := exists_build
  have hsubject : g.Licenses (fun _ _ => True) (subject 2) := licensed_word hg hrules 2 rfl
  have hrun : g.Licenses (fun _ _ => True) (run 3) := licensed_word hg hrules 3 rfl
  have hraised := raisedOver_cats hrules
  have hreplaced : catsRun.Replaced catsRaised (reported catsRun) (reported catsRaised) :=
    replaced_right (replaced_right .here rfl) rfl
  have hcatsRun : g.Licenses (fun _ _ => True) catsRun :=
    licensed_pair hrules ⟨_, rfl, rfl, rfl⟩ rfl hsubject hrun
  have hcatsRaised : g.Licenses (fun _ _ => True) catsRaised :=
    licensed_pair hrules ⟨_, rfl, rfl, rfl⟩ rfl (licensed_raising hrules rfl hsubject) hrun
  have hplain := licensed_reported hg hrules rfl rfl hcatsRun
  have hmem : (⟨3, 2, 6, 1⟩ : Dependency) ∈ (g.dependencies (reported catsRun)).toList := by
    rw [Grammar.mem_dependencies, decode_reported hcategories hrules hmarkups]
    decide
  have hnoun : g.category? (subject 2).step.cat = some noun := by
    rw [Grammar.category?, hcategories]
    rfl
  have hhead : (g.decode (subject 2)).1.head = .words [2] := by
    simp only [subject, word, Grammar.decode, Predicate.lexical, Grammar.arityOf, Grammar.markup, Grammar.category?,
      hcategories, hmarkups]
    rfl
  obtain ⟨-, hsame⟩ := dependencies_raised made_builder hbuild hraised hreplaced hplain hnoun hhead
  exact ⟨made_builder, g, hbuild, hplain, licensed_reported hg hrules rfl rfl hcatsRaised, hraised, hreplaced, hmem,
    hsame⟩

end Subjects

end Categorial
