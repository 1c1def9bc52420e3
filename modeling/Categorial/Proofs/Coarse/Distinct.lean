import Categorial.Proofs.Coarse.Derivable
set_option autoImplicit false

/-!
No step is tried twice when the words list no category twice. A step names its rule and the items that it
takes, and an item knows its span. The steps of words are the only ones that can be there twice, and they are exactly
if a word lists a category twice that the beam leaves in and that has a lexical rule.
-/

namespace Categorial

/-- No word lists a category twice. -/
def Supertags.Distinct {α : Type} (tags : Supertags α) : Prop :=
  ∀ word, ((tags.all word).map Tag.cat).Nodup

namespace CoarseChart

def StepsOnce {α : Type} (c : CoarseChart α) : Prop :=
  ∀ span, span.Within c.sentence.length → ∀ id item, (id, item) ∈ c.itemsOver span → item.steps.toList.Nodup

variable {α : Type} [Scalar α] {c : CoarseChart α} {tags : Supertags α}

/-- The categories within the beam that the word may have by a lexical rule, as often as they are listed. -/
def lexicalCats (c : CoarseChart α) (tags : Supertags α) (word : Nat) : List CatId :=
  ((tags.within word c.beta).map Tag.cat).filter fun cat => (c.grammar.lexicalRule? cat).isSome

theorem nodup_stepsTo {steps : List (CatId × CoarseStep)} (h : steps.Nodup) (cat : CatId) :
    (stepsTo steps cat).Nodup := by
  unfold stepsTo
  refine (h.filter _).map_on fun p hp q hq heq => ?_
  have hp' : p.1 = cat := by simpa using (List.mem_filter.mp hp).2
  have hq' : q.1 = cat := by simpa using (List.mem_filter.mp hq).2
  exact Prod.ext (hp'.trans hq'.symm) heq

namespace Saturated

theorem nodup_itemsOver (hc : c.Saturated tags) {span : Span} (hspan : span.Within c.sentence.length) :
    (c.itemsOver span).Nodup :=
  (hc.keys_nodup hspan).of_map _

theorem nodup_joinSteps (hc : c.Saturated tags) (hg : c.grammar.Indexed) {left right : Span}
    (hleft : left.Within c.sentence.length) (hright : right.Within c.sentence.length) :
    (c.joinSteps left right).Nodup := by
  unfold joinSteps
  refine nodup_flatMap_of (hc.nodup_itemsOver hleft) ?_ ?_
  · rintro ⟨l, leftItem⟩ _
    refine nodup_flatMap_of (hc.nodup_itemsOver hright) ?_ ?_
    · rintro ⟨r, rightItem⟩ _
      simp only [hg.binaryRules]
      refine (hg.idsWhere_nodup _).filterMap fun rule rule' step h h' => ?_
      obtain ⟨_, _, rfl⟩ := Option.map_eq_some_iff.mp h
      obtain ⟨_, _, heq⟩ := Option.map_eq_some_iff.mp h'
      simp only [Prod.mk.injEq, CoarseStep.binary.injEq] at heq
      exact heq.2.1.symm
    · rintro ⟨r, rightItem⟩ hr ⟨r', rightItem'⟩ hr' step h h'
      obtain ⟨_, _, h⟩ := List.mem_filterMap.mp h
      obtain ⟨_, _, h'⟩ := List.mem_filterMap.mp h'
      obtain ⟨_, _, rfl⟩ := Option.map_eq_some_iff.mp h
      obtain ⟨_, _, heq⟩ := Option.map_eq_some_iff.mp h'
      simp only [Prod.mk.injEq, CoarseStep.binary.injEq] at heq
      obtain ⟨_, _, _, rfl⟩ := heq
      rw [item_eq_of_mem hr hr']
  · rintro ⟨l, leftItem⟩ hl ⟨l', leftItem'⟩ hl' step h h'
    obtain ⟨_, _, h⟩ := List.mem_flatMap.mp h
    obtain ⟨_, _, h'⟩ := List.mem_flatMap.mp h'
    obtain ⟨_, _, h⟩ := List.mem_filterMap.mp h
    obtain ⟨_, _, h'⟩ := List.mem_filterMap.mp h'
    obtain ⟨_, _, rfl⟩ := Option.map_eq_some_iff.mp h
    obtain ⟨_, _, heq⟩ := Option.map_eq_some_iff.mp h'
    simp only [Prod.mk.injEq, CoarseStep.binary.injEq] at heq
    obtain ⟨_, _, rfl, _⟩ := heq
    rw [item_eq_of_mem hl hl']

theorem nodup_binarySteps (hc : c.Saturated tags) (hg : c.grammar.Indexed) {span : Span}
    (hspan : span.Within c.sentence.length) : (c.binarySteps span).Nodup := by
  unfold binarySteps
  obtain ⟨hlt, hle⟩ := hspan
  have hsplit : ∀ i ∈ List.range (span.length - 1),
      Span.Within c.sentence.length ⟨span.start, span.start + 1 + i⟩ ∧
        Span.Within c.sentence.length ⟨span.start + 1 + i, span.stop⟩ := by
    intro i hi
    simp only [List.mem_range, Span.length, Span.Within] at hi ⊢
    omega
  refine nodup_flatMap_of List.nodup_range
    (fun i hi => hc.nodup_joinSteps hg (hsplit i hi).1 (hsplit i hi).2) ?_
  rintro i hi j hj ⟨cat, step⟩ h h'
  obtain ⟨l, leftItem, _, _, _, hl, _, _, rfl⟩ := (mem_joinSteps hg).mp h
  obtain ⟨l', leftItem', _, _, _, hl', _, _, heq⟩ := (mem_joinSteps hg).mp h'
  obtain ⟨_, rfl, _⟩ := CoarseStep.binary.inj heq
  -- the left item knows its span, and with it the split
  have hspans : leftItem.span = leftItem'.span := by rw [item_eq_of_mem hl hl']
  rw [hc.span_eq (hsplit i hi).1 hl, hc.span_eq (hsplit j hj).1 hl', Span.mk.injEq] at hspans
  omega

theorem nodup_unaryStepsOver (hc : c.Saturated tags) (hg : c.grammar.Indexed) {span : Span}
    (hspan : span.Within c.sentence.length) : (c.unaryStepsOver span).Nodup := by
  unfold unaryStepsOver
  refine nodup_flatMap_of (hc.nodup_itemsOver hspan) ?_ ?_
  · rintro ⟨id, child⟩ _
    simp only
    split
    · rw [hg.unaryRules]
      refine (hg.idsWhere_nodup _).filterMap fun rule rule' step h h' => ?_
      obtain ⟨_, _, rfl⟩ := Option.map_eq_some_iff.mp h
      obtain ⟨_, _, heq⟩ := Option.map_eq_some_iff.mp h'
      simp only [Prod.mk.injEq, CoarseStep.unary.injEq] at heq
      exact heq.2.1.symm
    · exact List.nodup_nil
  · rintro ⟨id, child⟩ hid ⟨id', child'⟩ hid' step h h'
    simp only at h h'
    split at h
    · split at h'
      · obtain ⟨_, _, h⟩ := List.mem_filterMap.mp h
        obtain ⟨_, _, h'⟩ := List.mem_filterMap.mp h'
        obtain ⟨_, _, rfl⟩ := Option.map_eq_some_iff.mp h
        obtain ⟨_, _, heq⟩ := Option.map_eq_some_iff.mp h'
        simp only [Prod.mk.injEq, CoarseStep.unary.injEq] at heq
        obtain ⟨_, _, rfl⟩ := heq
        rw [item_eq_of_mem hid hid']
      · simp at h'
    · simp at h

end Saturated

theorem map_fst_lexicalSteps (c : CoarseChart α) (tags : Supertags α) (i : Nat) :
    (c.lexicalSteps tags i).map Prod.fst = c.lexicalCats tags i := by
  unfold lexicalSteps lexicalCats
  induction tags.within i c.beta with
  | nil => rfl
  | cons tag rest ih =>
    cases h : c.grammar.lexicalRule? tag.cat with
    | none => simpa [h] using ih
    | some rule => simpa [h] using ih

theorem nodup_lexicalSteps_iff {i : Nat} : (c.lexicalSteps tags i).Nodup ↔ (c.lexicalCats tags i).Nodup := by
  rw [← map_fst_lexicalSteps]
  refine ⟨fun h => h.map_on ?_, List.Nodup.of_map _⟩
  rintro ⟨cat, step⟩ hp ⟨cat', step'⟩ hq rfl
  obtain ⟨_, _, _, hrule, rfl, rfl⟩ := mem_lexicalSteps.mp hp
  obtain ⟨_, _, _, hrule', hcat, rfl⟩ := mem_lexicalSteps.mp hq
  rw [← hcat, hrule] at hrule'
  rw [Option.some.inj hrule']

theorem nodup_lexicalCats (c : CoarseChart α) (htags : tags.Distinct) (i : Nat) : (c.lexicalCats tags i).Nodup :=
  ((htags i).sublist ((List.takeWhile_sublist _).map Tag.cat)).filter _

theorem nodup_of_stepsTo {steps : List (CatId × CoarseStep)} (h : ∀ cat, (stepsTo steps cat).Nodup) :
    steps.Nodup := by
  refine List.nodup_iff_sublist.mpr fun p hp => List.nodup_iff_sublist.mp (h p.1) p.2 ?_
  have hfilter := (hp.filter fun q => q.1 == p.1).map Prod.snd
  simpa [stepsTo] using hfilter

namespace Saturated

theorem nodup_stepsAt (hc : c.Saturated tags) (hg : c.grammar.Indexed)
    (hwords : ∀ i < c.sentence.length, (c.lexicalCats tags i).Nodup) {span : Span}
    (hspan : span.Within c.sentence.length) (level : Level) : (c.stepsAt tags span level).Nodup := by
  cases level with
  | unary => exact hc.nodup_unaryStepsOver hg hspan
  | base =>
    simp only [stepsAt, stepsOver]
    split
    · exact nodup_lexicalSteps_iff.mpr (hwords _ (Nat.lt_of_lt_of_le hspan.1 hspan.2))
    · exact hc.nodup_binarySteps hg hspan

/-- The chart has no step twice exactly if no word of the sentence lists twice a category that it may have. -/
theorem stepsOnce_iff (hc : c.Saturated tags) (hg : c.grammar.Indexed) :
    c.StepsOnce ↔ ∀ i < c.sentence.length, (c.lexicalCats tags i).Nodup := by
  constructor
  · intro h i hi
    have hspan : (Span.word i).Within c.sentence.length := ⟨Nat.lt_succ_self i, hi⟩
    have hsteps : c.stepsAt tags (Span.word i) .base = c.lexicalSteps tags i := by
      simp [stepsAt, stepsOver, Span.word, Span.length]
    rw [← nodup_lexicalSteps_iff]
    refine nodup_of_stepsTo fun cat => ?_
    by_cases hcat : cat ∈ catsOf (c.stepsAt tags (Span.word i) .base)
    · obtain ⟨id, hmem⟩ := hc.exists_item hspan hcat
      have hitem := h _ hspan id _ hmem
      rw [hsteps] at hitem
      exact hitem
    · have hnone : stepsTo (c.lexicalSteps tags i) cat = [] := by
        rw [List.eq_nil_iff_forall_not_mem]
        intro step hstep
        rw [hsteps] at hcat
        exact hcat (mem_catsOf.mpr ⟨step, mem_stepsTo.mp hstep⟩)
      rw [hnone]
      exact List.nodup_nil
  · intro hwords span hspan id item hmem
    rw [(hc.mem_itemsOver hspan hmem).2]
    exact nodup_stepsTo (hc.nodup_stepsAt hg hwords hspan _) _

theorem nodup_steps (hc : c.Saturated tags) (hg : c.grammar.Indexed) (htags : tags.Distinct) {span : Span}
    (hspan : span.Within c.sentence.length) {id : CoarseId} {item : CoarseItem}
    (hmem : (id, item) ∈ c.itemsOver span) : item.steps.toList.Nodup :=
  (hc.stepsOnce_iff hg).mpr (fun i _ => nodup_lexicalCats c htags i) span hspan id item hmem

end Saturated

end CoarseChart

end Categorial
