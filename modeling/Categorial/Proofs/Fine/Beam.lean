import Categorial.Proofs.Fine.Live
import Categorial.Proofs.Fine.Trees
set_option autoImplicit false

namespace Categorial

namespace FineChart

variable {α : Type} [Scalar α] {f f' : FineChart α} {m : Model α} {retain : Retain}

-- The best merit of a span.

def meritsOver (f : FineChart α) (m : Model α) (span : Span) : List α :=
  f.items.toList.filterMap fun x => if x.site.span = span then some (f.meritOf m x) else none

def bestOver (f : FineChart α) (m : Model α) (span : Span) : α :=
  (f.meritsOver m span).foldl Scalar.max Scalar.bottom

/-- An unmarked item over the span attains the best merit, unless that is the logarithm of zero. -/
def KeepsBest (f : FineChart α) (m : Model α) (span : Span) : Prop :=
  Scalar.isBottom (f.bestOver m span) = false → ∃ i x, f.item? i = some x ∧ x.site.span = span ∧
    x.pruned = false ∧ f.meritOf m x = f.bestOver m span

theorem foldl_max_mem (x : α) (xs : List α) : xs.foldl Scalar.max x = x ∨ xs.foldl Scalar.max x ∈ xs := by
  induction xs using List.reverseRecOn with
  | nil => exact .inl rfl
  | append_singleton xs y ih =>
    rw [List.foldl_append, List.foldl_cons, List.foldl_nil, Scalar.max]
    split
    · simp
    · exact ih.imp_right fun h => by simp [h]

theorem mem_meritsOver {span : Span} {y : α} :
    y ∈ f.meritsOver m span ↔ ∃ i x, f.item? i = some x ∧ x.site.span = span ∧ f.meritOf m x = y := by
  rw [meritsOver, List.mem_filterMap]
  simp only [List.mem_iff_getElem?, Array.getElem?_toList, item?]
  constructor
  · rintro ⟨x, ⟨i, hx⟩, hmerit⟩
    split at hmerit
    · exact ⟨i, x, hx, ‹_›, Option.some.inj hmerit⟩
    · cases hmerit
  · rintro ⟨i, x, hx, hspan, rfl⟩
    exact ⟨x, ⟨i, hx⟩, if_pos hspan⟩

theorem meritOf_congr (hcoarse : f'.coarse = f.coarse) : f'.meritOf m = f.meritOf m := by
  funext x
  simp only [meritOf, context, hcoarse]

theorem keepsBest_of_unmarked (hbottom : Scalar.isBottom (Scalar.bottom : α) = true) {span : Span}
    (hunmarked : ∀ i x, f.item? i = some x → x.site.span = span → x.pruned = false) :
    f.KeepsBest m span := by
  intro hbest
  rcases foldl_max_mem Scalar.bottom (f.meritsOver m span) with heq | hmem
  · rw [bestOver, heq, hbottom] at hbest
    cases hbest
  · obtain ⟨i, x, hx, hspan, hmerit⟩ := mem_meritsOver.mp hmem
    exact ⟨i, x, hx, hspan, hunmarked i x hx hspan, hmerit⟩

section

variable {cell : List CoarseId} {first : FineId} {beam : α} {span : Span}

theorem bestOver_prune : (f.prune m cell first beam).bestOver m span = f.bestOver m span := by
  refine congrArg (List.foldl Scalar.max Scalar.bottom) (filterMap_eq_of_getElem? fun i => ?_)
  have hget := item?_prune f m cell first beam i
  simp only [item?] at hget
  rw [Array.getElem?_toList, Array.getElem?_toList, hget, meritOf_congr (coarse_prune f m cell first beam)]
  cases f.items[i]? with
  | none => rfl
  | some x => rfl

theorem Grown.bestOver_eq (h : f.Grown f' cell) (hcoarse : f'.coarse = f.coarse)
    (hother : ∀ i x, f.items.size ≤ i → f'.item? i = some x → x.site.span ≠ span) :
    f'.bestOver m span = f.bestOver m span := by
  refine congrArg (List.foldl Scalar.max Scalar.bottom) (filterMap_eq_of_getElem? fun i => ?_)
  rw [Array.getElem?_toList, Array.getElem?_toList, meritOf_congr hcoarse]
  by_cases hi : i < f.items.size
  · exact congrArg (Option.bind · _) (h.old i hi)
  · rw [Array.getElem?_eq_none (Nat.le_of_not_lt hi)]
    cases hx : f'.items[i]? with
    | none => rfl
    | some x => exact if_neg (hother i x (Nat.le_of_not_lt hi) hx)

theorem KeepsBest.grown (hbest : f.KeepsBest m span) (h : f.Grown f' cell) (hcoarse : f'.coarse = f.coarse)
    (hother : ∀ i x, f.items.size ≤ i → f'.item? i = some x → x.site.span ≠ span) :
    f'.KeepsBest m span := by
  intro hpossible
  rw [h.bestOver_eq hcoarse hother] at hpossible ⊢
  obtain ⟨i, x, hx, hspan, hmark, hmerit⟩ := hbest hpossible
  exact ⟨i, x, (h.old i (lt_size_of_item? hx)).trans hx, hspan, hmark, meritOf_congr hcoarse ▸ hmerit⟩

theorem KeepsBest.prune (hbest : f.KeepsBest m span)
    (hkeep : ∀ i x, f.item? i = some x → x.site.span = span → f.meritOf m x = f.bestOver m span →
      f.falls m first beam i = false) : (f.prune m cell first beam).KeepsBest m span := by
  intro hpossible
  rw [bestOver_prune] at hpossible ⊢
  obtain ⟨i, x, hx, hspan, hmark, hmerit⟩ := hbest hpossible
  refine ⟨i, { x with pruned := f.falls m first beam i || x.pruned }, ?_, hspan, ?_, ?_⟩
  · rw [item?_prune, hx]
    rfl
  · simp only [hkeep i x hx hspan hmerit, hmark, Bool.or_false]
  · rw [meritOf_congr (coarse_prune f m cell first beam), ← hmerit]
    rfl

/-- Where the items from `first` on are those over one span, the threshold is below the best merit of the
span by the width of the beam. -/
theorem threshold?_eq (hspan : ∀ i x, f.item? i = some x → (first ≤ i ↔ x.site.span = span)) :
    f.threshold? m first beam = if Scalar.isBottom (f.bestOver m span) then none
      else some (f.bestOver m span + Scalar.log beam) := by
  have hmerits : f.meritsOver m span = (f.items.drop first).toList.map (f.meritOf m) := by
    have hdrop : (f.items.drop first).toList = f.items.toList.drop first := by
      rw [Array.drop_eq_extract, Array.toList_extract, List.extract_eq_take_drop,
        List.take_of_length_le (by simp)]
    rw [meritsOver, hdrop]
    refine filterMap_eq_map_drop (fun i x hx hlt => if_neg fun heq => ?_) fun i x hx hle => if_pos ?_
    · exact absurd ((hspan i x (Array.getElem?_toList.symm.trans hx)).mpr heq) (Nat.not_le.mpr hlt)
    · exact (hspan i x (Array.getElem?_toList.symm.trans hx)).mp hle
  rw [threshold?, bestOver, hmerits]

theorem not_falls_of_best (hspan : ∀ i x, f.item? i = some x → (first ≤ i ↔ x.site.span = span))
    (hwidth : ∀ x : α, Scalar.lt x (x + Scalar.log beam) = false) {i : FineId} {x : FineItem α}
    (hx : f.item? i = some x) (hmerit : f.meritOf m x = f.bestOver m span) :
    f.falls m first beam i = false := by
  rw [falls, threshold?_eq hspan]
  split
  · rfl
  · simp [hx, hmerit, hwidth]

end

-- One cell after the other.

variable {c : CoarseChart α} {tags : Supertags α} {beam : Option α} {spans : List Span} {span : Span}

/-- The chart when the items of a cell are there and no beam has been over them. -/
def unpruned (m : Model α) (retain : Retain) (f : FineChart α) (span : Span) : FineChart α :=
  (levels (f.coarse.itemsOver span)).foldl (expand m retain) f

theorem fill_cases (h : f.coarse = c) : fill m retain beam f span = unpruned m retain f span ∨
    ∃ width, beam = some width ∧ fill m retain beam f span =
      (unpruned m retain f span).prune m ((levels (c.itemsOver span)).map Prod.fst) f.items.size width := by
  subst h
  cases beam with
  | none => exact .inl rfl
  | some width => exact .inr ⟨width, rfl, rfl⟩

/-- A cell has been refined, and those of the spans before it. -/
structure Refined (c : CoarseChart α) (m : Model α) (retain : Retain) (spans : List Span) (span : Span)
    (f f' : FineChart α) : Prop where
  sound : Sound c m retain ((cellsOf c (spans ++ [span])).map Prod.fst) f'
  tidy : f'.Tidy
  grown : f.Grown f' ((levels (c.itemsOver span)).map Prod.fst)
  new_iff : ∀ i x, f'.item? i = some x → (f.items.size ≤ i ↔ x.site.span = span)

omit [Scalar α] in
theorem cellsOf_append_singleton (c : CoarseChart α) (spans : List Span) (span : Span) :
    cellsOf c (spans ++ [span]) = cellsOf c spans ++ levels (c.itemsOver span) := by
  simp [cellsOf]

theorem refined_unpruned (hc : c.Saturated tags) (hs : Sound c m retain ((cellsOf c spans).map Prod.fst) f)
    (hf : f.Tidy) (hwithin : ∀ s ∈ spans ++ [span], s.Within c.sentence.length) (hspan : span ∉ spans)
    (hnodup : ((cellsOf c (spans ++ [span])).map Prod.fst).Nodup) :
    Refined c m retain spans span f (unpruned m retain f span) := by
  have hitem : ∀ entry ∈ levels (c.itemsOver span), c.item? entry.1 = some entry.2 :=
    fun entry hentry => CoarseChart.item?_of_mem (mem_levels.mp hentry)
  rw [cellsOf_append_singleton, List.map_append] at hnodup
  have hsound := hs.foldl_expand hitem hnodup
  obtain ⟨htidy, hgrown⟩ := hf.foldl_expand hs hitem hnodup
  rw [← List.map_append, ← cellsOf_append_singleton] at hsound
  have hfold : (levels (c.itemsOver span)).foldl (expand m retain) f = unpruned m retain f span := by
    rw [unpruned, hs.coarse_eq]
  rw [hfold] at hsound htidy hgrown
  refine ⟨hsound, htidy, hgrown, fun i x hx => ⟨fun hle => ?_, fun hover => ?_⟩⟩
  · obtain ⟨⟨id, item⟩, hmem, hid⟩ := List.mem_map.mp (hgrown.added i x hle hx).1
    exact hsound.span_eq hc (hwithin span (by simp)) (mem_levels.mp hmem) ⟨hx, hid.symm⟩
  · -- an old item lies over a span before
    by_contra hlt
    rw [hgrown.old i (Nat.lt_of_not_le hlt)] at hx
    obtain ⟨s, hmem, source, _, hsource, _⟩ := hs.exists_source_in hx
    rw [hs.span_eq hc (hwithin s (by simp [hmem])) hsource ⟨hx, rfl⟩] at hover
    exact hspan (hover ▸ hmem)

theorem Refined.lt_size_of_ne (h : Refined c m retain spans span f f') (hc : c.Saturated tags) {sub : Span}
    (hsub : sub.Within c.sentence.length) (hne : sub ≠ span) {id : CoarseId} {item : CoarseItem}
    (hmem : (id, item) ∈ c.itemsOver sub) {i : FineId} {x : FineItem α} (hx : f'.Has id i x) :
    i < f.items.size := by
  by_contra hle
  have hover := (h.new_iff i x hx.1).mp (Nat.le_of_not_lt hle)
  exact hne ((h.sound.span_eq hc hsub hmem hx).symm.trans hover)

theorem Refined.earlier (h : Refined c m retain spans span f f') (hc : c.Saturated tags)
    (hg : c.grammar.Indexed) (hwithin : span.Within c.sentence.length) {i : FineId} {x : FineItem α}
    (hx : f'.item? i = some x) {e : FineEdge α} (he : e ∈ x.edges) {rule : RuleId} {l r : FineId}
    (hstep : e.step = .binary rule l r) : l < f.items.size ∧ r < f.items.size := by
  have hbelow := h.sound.below hx he
  simp only [hstep, FineStep.children, List.mem_cons, List.not_mem_nil, or_false, forall_eq_or_imp,
    forall_eq] at hbelow
  by_cases hi : i < f.items.size
  · exact ⟨hbelow.1.trans hi, hbelow.2.trans hi⟩
  · obtain ⟨⟨id, item⟩, hentry, hid⟩ := List.mem_map.mp (h.grown.added i x (Nat.le_of_not_lt hi) hx).1
    obtain rfl : id = x.coarse := hid
    have hmem := mem_levels.mp hentry
    obtain ⟨source, _, hmade⟩ := h.sound.made i x hx
    have hsource := hmade.source_eq
    rw [h.sound.coarse_eq, CoarseChart.item?_of_mem hmem] at hsource
    cases hsource
    have hbuilt := (hmade.built_of_mem he).1
    obtain ⟨step, localScore, score⟩ := e
    obtain rfl : step = .binary rule l r := hstep
    cases hbuilt with
    | binary hmemstep hl hr =>
      obtain ⟨mid, left, right, hlt, hlt', hleft, hright⟩ :=
        ((hc.mem_steps hg hwithin hmem).mp hmemstep).children_of_binary
      -- both lie over parts of the span
      have hfront : Span.Within c.sentence.length ⟨span.start, mid⟩ :=
        ⟨hlt, (Nat.le_of_lt hlt').trans hwithin.2⟩
      have hback : Span.Within c.sentence.length ⟨mid, span.stop⟩ := ⟨hlt', hwithin.2⟩
      exact ⟨h.lt_size_of_ne hc hfront (fun heq => Nat.ne_of_lt hlt' (congrArg Span.stop heq)) hleft hl,
        h.lt_size_of_ne hc hback (fun heq => Nat.ne_of_gt hlt (congrArg Span.start heq)) hright hr⟩

theorem Refined.fill (h : Refined c m retain spans span f (unpruned m retain f span)) (hc : c.Saturated tags)
    (hg : c.grammar.Indexed) (hwithin : span.Within c.sentence.length) (hcoarse : f.coarse = c)
    (hbottom : Scalar.isBottom (Scalar.bottom : α) = true)
    (hwidth : ∀ width, beam = some width → ∀ x : α, Scalar.lt x (x + Scalar.log width) = false)
    (hbest : ∀ s, f.KeepsBest m s) :
    (FineChart.fill m retain beam f span).Tidy ∧
      ∀ s, (FineChart.fill m retain beam f span).KeepsBest m s := by
  have hcell : ∀ s, (unpruned m retain f span).KeepsBest m s := by
    intro s
    by_cases hs : s = span
    · subst hs
      refine keepsBest_of_unmarked hbottom fun i x hx hover => ?_
      exact (h.grown.added i x ((h.new_iff i x hx).mpr hover) hx).2
    · refine (hbest s).grown h.grown (h.sound.coarse_eq.trans hcoarse.symm) fun i x hle hx hover => ?_
      exact hs (hover.symm.trans ((h.new_iff i x hx).mp hle))
  rcases fill_cases hcoarse with heq | ⟨width, hbeam, heq⟩
  · rw [heq]
    exact ⟨h.tidy, hcell⟩
  · rw [heq]
    refine ⟨h.tidy.prune (fun i x hx hle => (h.grown.added i x hle hx).1) fun i x hx e he rule l r hstep =>
      h.earlier hc hg hwithin hx he hstep, fun s => (hcell s).prune fun i x hx hover hmerit => ?_⟩
    by_cases hs : s = span
    · subst hs
      exact not_falls_of_best h.new_iff (hwidth width hbeam) hx hmerit
    · refine Bool.eq_false_iff.mpr fun hfalls => hs ?_
      exact hover.symm.trans ((h.new_iff i x hx).mp (le_of_falls hfalls))

theorem tidy_foldl_fill (hc : c.Saturated tags) (hg : c.grammar.Indexed)
    (hbottom : Scalar.isBottom (Scalar.bottom : α) = true)
    (hwidth : ∀ width, beam = some width → ∀ x : α, Scalar.lt x (x + Scalar.log width) = false)
    (hwithin : ∀ s ∈ spans, s.Within c.sentence.length) (hspans : spans.Nodup)
    (hnodup : ((cellsOf c spans).map Prod.fst).Nodup) :
    (spans.foldl (fill m retain beam) (unscored c)).Tidy ∧
      ∀ s, (spans.foldl (fill m retain beam) (unscored c)).KeepsBest m s := by
  induction spans using List.reverseRecOn with
  | nil =>
    refine ⟨tidy_unscored c, fun s => keepsBest_of_unmarked hbottom fun i x hx => ?_⟩
    simp [item?, unscored] at hx
  | append_singleton spans span ih =>
    obtain ⟨hspans, _, hdisjoint⟩ := List.nodup_append.mp hspans
    have hspan : span ∉ spans := fun hmem => hdisjoint span hmem span (by simp) rfl
    have hbefore := hnodup
    rw [cellsOf_append_singleton, List.map_append] at hbefore
    have hbefore := (List.nodup_append.mp hbefore).1
    obtain ⟨htidy, hbest⟩ := ih (fun s hs => hwithin s (by simp [hs])) hspans hbefore
    have hsound : Sound c m retain _ (spans.foldl (FineChart.fill m retain beam) (unscored c)) :=
      (sound_unscored c m retain).foldl_fill hbefore
    rw [List.foldl_append]
    exact (refined_unpruned hc hsound htidy hwithin hspan hnodup).fill hc hg (hwithin span (by simp))
      hsound.coarse_eq hbottom hwidth hbest

end FineChart

end Categorial
