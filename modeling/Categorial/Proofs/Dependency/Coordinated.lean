import Categorial.Proofs.Dependency.Raised
set_option autoImplicit false

/-!
Conjuncts over a functor whose argument they are, raised one by one and then coordinated, or coordinated and then
raised. Coordination forgets that its parts were raised: in the first case the functor takes no argument, and all that
it would have found in the conjuncts is lost.
-/

namespace Categorial

namespace Predicate

theorem filled_words_eq_nil_iff {owners : List Owner} {ws : List Nat} (h : ∀ o ∈ owners, o.word ∉ ws) :
    filled owners (.words ws) = [] ↔ owners = [] ∨ ws = [] := by
  cases owners with
  | nil => simp [filled]
  | cons o owners =>
    simp only [filled, List.flatMap_eq_nil_iff, List.map_eq_nil_iff, List.filter_eq_nil_iff, reduceCtorEq, false_or]
    constructor
    · intro hnone
      refine List.eq_nil_iff_forall_not_mem.mpr fun w hw => hnone o (List.mem_cons_self ..) w hw ?_
      refine bne_iff_ne.mpr ?_
      rintro rfl
      exact h o (List.mem_cons_self ..) hw
    · rintro rfl
      exact fun _ _ _ hw => absurd hw List.not_mem_nil

theorem mem_filled_words {owners : List Owner} {ws : List Nat} {d : Dependency} (h : d ∈ filled owners (.words ws)) :
    (∃ o ∈ owners, o.word = d.target) ∧ d.source ∈ ws := by
  obtain ⟨o, ho, hd⟩ := List.mem_flatMap.mp h
  obtain ⟨w, hw, rfl⟩ := List.mem_map.mp hd
  exact ⟨⟨o, ho, rfl⟩, List.mem_of_mem_filter hw⟩

theorem coordinate_raise {p q : Predicate} {ws ws' : List Nat} (hp : p.head = .words ws) (hq : q.head = .words ws')
    (arity arity' : Nat) : coordinate (unary.raise arity p) (unary.raise arity' q) =
      ⟨.words (ws ++ ws'), merge (vacant arity) (vacant arity'), false⟩ := by
  simp [coordinate, unary.raise, hp, hq]

theorem outermost_eq_nil_of_owned {p : Predicate} (h : Owned (fun _ => False) p.arguments) : p.outermost = [] :=
  List.eq_nil_iff_forall_not_mem.mpr (h.getD fun _ hos => List.mem_of_head? hos)

theorem apply_coordinate_raise {p q : Predicate} {ws ws' : List Nat} (hp : p.head = .words ws)
    (hq : q.head = .words ws') (arity arity' : Nat) (functor : Predicate) :
    (apply (coordinate (unary.raise arity p) (unary.raise arity' q)) functor).1.head = .words (ws ++ ws') ∧
    (apply (coordinate (unary.raise arity p) (unary.raise arity' q)) functor).2 = [] := by
  rw [coordinate_raise hp hq]
  refine ⟨rfl, ?_⟩
  have howned : Owned (fun _ => False) (merge (vacant arity) (vacant arity')) :=
    (owned_vacant arity).merge (owned_vacant arity')
  rw [deps_apply rfl, outermost_eq_nil_of_owned howned]
  cases functor.head <;> rfl

theorem deps_apply_raise_coordinate {p q : Predicate} {ws ws' : List Nat} (hp : p.head = .words ws)
    (hq : q.head = .words ws') (arity : Nat) (functor : Predicate) :
    (apply (unary.raise arity (coordinate p q)) functor).2 = filled functor.outermost (.words (ws ++ ws')) := by
  have hraise : unary.raise arity (coordinate p q) = ⟨.words (ws ++ ws'), vacant arity, true⟩ := by
    simp [coordinate, unary.raise, hp, hq]
  rw [hraise, apply, if_pos rfl, consume, outermost, List.head?_eq_getElem?]

end Predicate

namespace Grammar

variable {g : Grammar}

section

variable {left right : Derivation} {step : Step} {span : Span}

theorem decode_conj (h : g.Uses step .conj) :
    (g.decode (.branch step span [left, right])).1 = (g.decode right).1 ∧
    (g.decode (.branch step span [left, right])).2 = (g.decode left).2 ++ (g.decode right).2 := by
  obtain ⟨rule, hrule, hcombinator⟩ := h
  simp [decode, hrule, Predicate.binary, hcombinator]

theorem decode_coord (h : g.Uses step .coord) :
    (g.decode (.branch step span [left, right])).1 = Predicate.coordinate (g.decode left).1 (g.decode right).1 ∧
    (g.decode (.branch step span [left, right])).2 = (g.decode left).2 ++ (g.decode right).2 := by
  obtain ⟨rule, hrule, hcombinator⟩ := h
  simp [decode, hrule, Predicate.binary, hcombinator]

end

/-- A phrase and, behind a conjunction, another. -/
inductive Coordinates (g : Grammar) (left word right : Derivation) : Derivation → Prop where
  | intro {marked root : Step} (span span' : Span) : g.Uses marked .conj → g.Uses root .coord →
      Coordinates g left word right (.branch root span [left, .branch marked span' [word, right]])

/-- A phrase, raised to take a functor on its right. -/
inductive Raises (g : Grammar) (t : Derivation) : Derivation → Prop where
  | intro {root : Step} (span : Span) : g.Uses root .fwdRaise → Raises g t (.branch root span [t])

/-- Two conjuncts over a functor: raised and then coordinated, or coordinated and then raised. -/
inductive RaisedConjuncts (g : Grammar) (left word right functor : Derivation) : Derivation → Derivation → Prop where
  | intro {left' right' joined joined' raised : Derivation} {root root' : Step} (span span' : Span) :
      g.Raises left left' → g.Raises right right' → g.Coordinates left' word right' joined →
      g.Coordinates left word right joined' → g.Raises joined' raised → g.Uses root .fwdApp → g.Uses root' .fwdApp →
      RaisedConjuncts g left word right functor (.branch root span [joined, functor])
        (.branch root' span' [raised, functor])

variable {left word right functor t t' : Derivation} {ws ws' : List Nat}

theorem Coordinates.decode_eq (h : g.Coordinates left word right t) :
    (g.decode t).1 = Predicate.coordinate (g.decode left).1 (g.decode right).1 ∧
    (g.decode t).2 = (g.decode left).2 ++ ((g.decode word).2 ++ (g.decode right).2) := by
  obtain ⟨span, span', hmarked, hroot⟩ := h
  rw [(decode_coord hroot).1, (decode_coord hroot).2, (decode_conj hmarked).1, (decode_conj hmarked).2]
  exact ⟨rfl, rfl⟩

theorem Raises.decode_eq (h : g.Raises left t) :
    (∃ arity, (g.decode t).1 = Predicate.unary.raise arity (g.decode left).1) ∧ (g.decode t).2 = (g.decode left).2 := by
  obtain ⟨span, hraised⟩ := h
  exact ⟨⟨_, (decode_raise (.inl hraised)).1⟩, (decode_raise (.inl hraised)).2⟩

/-- What is found in the conjuncts and the functor is found either way, and what the functor finds in its argument
only if it takes it. -/
theorem RaisedConjuncts.decode_eq (h : g.RaisedConjuncts left word right functor t t')
    (hleft : (g.decode left).1.head = .words ws) (hright : (g.decode right).1.head = .words ws') :
    (g.decode t).1.head = .words (ws ++ ws') ∧
    (g.decode t').2 = (g.decode t).2 ++ Predicate.filled (g.decode functor).1.outermost (.words (ws ++ ws')) := by
  obtain ⟨_, _, hraisesLeft, hraisesRight, hjoined, hjoined', hraised, hroot, hroot'⟩ := h
  obtain ⟨⟨arity, hpredLeft⟩, hdepsLeft⟩ := hraisesLeft.decode_eq
  obtain ⟨⟨arity', hpredRight⟩, hdepsRight⟩ := hraisesRight.decode_eq
  obtain ⟨⟨arity'', hpred⟩, hdeps⟩ := hraised.decode_eq
  obtain ⟨hhead, hnone⟩ := Predicate.apply_coordinate_raise hleft hright arity arity' (g.decode functor).1
  have hfilled := Predicate.deps_apply_raise_coordinate hleft hright arity'' (g.decode functor).1
  constructor
  · rw [(decode_fwdApp hroot).1, hjoined.decode_eq.1, hpredLeft, hpredRight, hhead]
  · rw [(decode_fwdApp hroot).2, (decode_fwdApp hroot').2, hjoined.decode_eq.1, hjoined.decode_eq.2, hpredLeft,
      hpredRight, hdepsLeft, hdepsRight, hnone, hpred, hdeps, hjoined'.decode_eq.1, hjoined'.decode_eq.2, hfilled,
      List.append_nil]

theorem Licenses.not_hasWord_of_meet {allowed : Nat → CatId → Prop} (hl : g.Licenses allowed left)
    (hr : g.Licenses allowed right) (hmeet : left.span.stop = right.span.start) {position : Nat}
    (h : left.HasWord position) : ¬ right.HasWord position := by
  intro h'
  obtain ⟨-, hstop⟩ := hl.holds_of_hasWord h
  obtain ⟨hstart, -⟩ := hr.holds_of_hasWord h'
  omega

theorem hasWord_of_mem_outermost {o : Owner} (h : o ∈ (g.decode functor).1.outermost) : functor.HasWord o.word := by
  obtain ⟨⟨leaf, hleaf, hstart, -⟩, -, -⟩ :=
    (gives_decode functor).1.owned.getD (fun _ hos => List.mem_of_head? hos) o h
  exact ⟨leaf, hleaf, hstart⟩

theorem RaisedConjuncts.apart (h : g.RaisedConjuncts left word right functor t t')
    (hleft : (g.decode left).1.head = .words ws) (hright : (g.decode right).1.head = .words ws')
    {allowed : Nat → CatId → Prop} (ht : g.Licenses allowed t) : (∀ w ∈ ws ++ ws', ¬ functor.HasWord w) ∧
      ∀ d ∈ (g.decode t).2, functor.HasWord d.target → d.source ∉ ws ++ ws' := by
  obtain @⟨left', right', joined, _, _, _, _, _, _, hraisesLeft, hraisesRight, hjoined, -, -, hroot, -⟩ := h
  obtain ⟨⟨arity, hpredLeft⟩, -⟩ := hraisesLeft.decode_eq
  obtain ⟨⟨arity', hpredRight⟩, -⟩ := hraisesRight.decode_eq
  have hpred := hjoined.decode_eq.1
  rw [hpredLeft, hpredRight] at hpred
  have hhead : (g.decode joined).1.head = .words (ws ++ ws') := by
    rw [hpred, Predicate.coordinate_raise hleft hright]
  obtain ⟨hover, hrelates⟩ := gives_decode (g := g) joined
  cases ht with
  | binary hlicensed hlicensed' hmeet _ =>
    have hdisjoint {w : Nat} (hw : joined.HasWord w) : ¬ functor.HasWord w :=
      hlicensed.not_hasWord_of_meet hlicensed' hmeet hw
    refine ⟨fun w hw => hdisjoint (hover.head hhead w hw), fun d hd htarget hsource => ?_⟩
    rw [(decode_fwdApp hroot).2, hpred, (Predicate.apply_coordinate_raise hleft hright arity arity' _).2,
      List.append_nil] at hd
    rcases List.mem_append.mp hd with hd | hd
    · obtain ⟨⟨leaf, hleaf, hstart, -⟩, -, -⟩ := (hrelates d hd).target
      exact hdisjoint ⟨leaf, hleaf, hstart⟩ htarget
    · exact hdisjoint (hover.head hhead _ hsource) ((gives_decode functor).2 d hd).source

/-- Raising before coordination loses dependencies. If the conjuncts are raised after they were coordinated, then the
functor fills its outermost argument with both; if before, then all that is found so is missing, and the conjuncts are
the head. In a licensed derivation nothing else finds it, so that the two orders agree if and only if no dependency on
the conjuncts could be found, since the argument has no owner or the conjuncts have no head. -/
theorem dependencies_raised_conjuncts (h : g.RaisedConjuncts left word right functor t t')
    (hleft : (g.decode left).1.head = .words ws) (hright : (g.decode right).1.head = .words ws') :
    (g.decode t).1.head = .words (ws ++ ws') ∧
    (∀ d, d ∈ (g.dependencies t').toList ↔ d ∈ (g.dependencies t).toList ∨
      d ∈ Predicate.filled (g.decode functor).1.outermost (.words (ws ++ ws'))) ∧
    (g.Licenses (fun _ _ => True) t →
      (∀ d ∈ Predicate.filled (g.decode functor).1.outermost (.words (ws ++ ws')), d ∉ (g.dependencies t).toList) ∧
      (g.dependencies t = g.dependencies t' ↔ (g.decode functor).1.outermost = [] ∨ ws ++ ws' = [])) := by
  obtain ⟨hhead, hdeps⟩ := h.decode_eq hleft hright
  have hmem (d : Dependency) : d ∈ (g.dependencies t').toList ↔ d ∈ (g.dependencies t).toList ∨
      d ∈ Predicate.filled (g.decode functor).1.outermost (.words (ws ++ ws')) := by
    rw [mem_dependencies, mem_dependencies, hdeps, List.mem_append]
  refine ⟨hhead, hmem, fun ht => ?_⟩
  obtain ⟨hapart, hlost⟩ := h.apart hleft hright ht
  have hnone : ∀ d ∈ Predicate.filled (g.decode functor).1.outermost (.words (ws ++ ws')),
      d ∉ (g.dependencies t).toList := by
    intro d hd hfound
    obtain ⟨⟨o, ho, htarget⟩, hsource⟩ := Predicate.mem_filled_words hd
    exact hlost d (mem_dependencies.mp hfound) (htarget ▸ hasWord_of_mem_outermost ho) hsource
  refine ⟨hnone, ?_⟩
  rw [← Predicate.filled_words_eq_nil_iff fun o ho hw => hapart _ hw (hasWord_of_mem_outermost ho)]
  constructor
  · intro hsame
    refine List.eq_nil_iff_forall_not_mem.mpr fun d hd => hnone d hd ?_
    rw [hsame]
    exact (hmem d).mpr (.inr hd)
  · intro hnil
    rw [dependencies_eq_iff, hdeps, hnil, List.append_nil]
    exact fun _ => Iff.rfl

end Grammar

namespace Subjects

open GrammarBuilder

open Bracketings (word pair rule?_eq licensed_word licensed_pair)

def and : Nat → Derivation := word 4 1

def raisedApart : Derivation :=
  pair 0 5 (pair 1 4 (raising (subject 0)) (pair 3 8 (and 1) (raising (subject 2)))) (run 3)

def raisedTogether : Derivation :=
  pair 0 5 (raising (pair 2 6 (subject 0) (pair 5 9 (and 1) (subject 2)))) (run 3)

section

variable {g : Grammar} (hg : g.Indexed) (hcategories : g.categories = categories)
  (hrules : g.rules = rules.toArray) (hmarkups : g.markups = [])

include hrules in
theorem raisedConjuncts_dogs :
    g.RaisedConjuncts (subject 0) (and 1) (subject 2) (run 3) raisedApart raisedTogether := by
  have huses {cat : CatId} {id : RuleId} {combinator : Combinator} (r : Rule) (hr : rules[id]? = some r)
      (hcombinator : r.combinator = combinator) : g.Uses ⟨cat, id⟩ combinator :=
    ⟨r, (rule?_eq hrules id).trans hr, hcombinator⟩
  exact .intro _ _ (.intro _ (huses _ rfl rfl)) (.intro _ (huses _ rfl rfl))
    (.intro _ _ (huses _ rfl rfl) (huses _ rfl rfl)) (.intro _ _ (huses _ rfl rfl) (huses _ rfl rfl))
    (.intro _ (huses _ rfl rfl)) (huses _ rfl rfl) (huses _ rfl rfl)

include hg hrules in
theorem licensed_raisedConjuncts :
    g.Licenses (fun _ _ => True) raisedApart ∧ g.Licenses (fun _ _ => True) raisedTogether := by
  have hsubject (position : Nat) : g.Licenses (fun _ _ => True) (subject position) :=
    licensed_word hg hrules position rfl
  have hand : g.Licenses (fun _ _ => True) (and 1) := licensed_word hg hrules 1 rfl
  have hrun : g.Licenses (fun _ _ => True) (run 3) := licensed_word hg hrules 3 rfl
  have hraised (position : Nat) : g.Licenses (fun _ _ => True) (raising (subject position)) :=
    licensed_raising hrules rfl (hsubject position)
  constructor
  · exact licensed_pair hrules ⟨_, rfl, rfl, rfl⟩ rfl
      (licensed_pair hrules ⟨_, rfl, rfl, rfl⟩ rfl (hraised 0)
        (licensed_pair hrules ⟨_, rfl, rfl, rfl⟩ rfl hand (hraised 2))) hrun
  · exact licensed_pair hrules ⟨_, rfl, rfl, rfl⟩ rfl
      (licensed_raising hrules rfl (licensed_pair hrules ⟨_, rfl, rfl, rfl⟩ rfl (hsubject 0)
        (licensed_pair hrules ⟨_, rfl, rfl, rfl⟩ rfl hand (hsubject 2)))) hrun

include hcategories hmarkups in
theorem decode_words : (∀ position, (g.decode (subject position)).1.head = .words [position]) ∧
    (g.decode (run 3)).1.outermost = [⟨3, 6, 1⟩] := by
  simp only [subject, run, word, Grammar.decode, Predicate.lexical, Predicate.outermost, Grammar.arityOf,
    Grammar.markup, Grammar.category?, hcategories, hmarkups]
  exact ⟨fun _ => rfl, rfl⟩

end

theorem dependencies_raised_conjuncts_dogs : Made builder ∧ ∃ g, builder.build 0 = .ok g ∧
    g.RaisedConjuncts (subject 0) (and 1) (subject 2) (run 3) raisedApart raisedTogether ∧
    g.Licenses (fun _ _ => True) raisedApart ∧ g.Licenses (fun _ _ => True) raisedTogether ∧
    (∀ d ∈ ([⟨3, 0, 6, 1⟩, ⟨3, 2, 6, 1⟩] : List Dependency),
      d ∈ (g.dependencies raisedTogether).toList ∧ d ∉ (g.dependencies raisedApart).toList) ∧
    g.dependencies raisedApart ≠ g.dependencies raisedTogether := by
  obtain ⟨g, hbuild, hg, hcategories, hrules, hmarkups⟩ := exists_build
  obtain ⟨hsubject, hrun⟩ := decode_words hcategories hmarkups
  obtain ⟨hapart, htogether⟩ := licensed_raisedConjuncts hg hrules
  have hconjuncts := raisedConjuncts_dogs hrules
  obtain ⟨-, hfound, hlicensed⟩ :=
    Grammar.dependencies_raised_conjuncts hconjuncts (hsubject 0) (hsubject 2)
  obtain ⟨hlost, hsame⟩ := hlicensed hapart
  rw [hrun] at hfound hlost hsame
  refine ⟨made_builder, g, hbuild, hconjuncts, hapart, htogether, fun d hd => ?_, fun heq => ?_⟩
  · exact ⟨(hfound d).mpr (.inr hd), hlost d hd⟩
  · rcases hsame.mp heq with hnil | hnil <;> cases hnil

end Subjects

end Categorial
