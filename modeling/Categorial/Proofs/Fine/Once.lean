import Categorial.Proofs.Fine.AllEdges
set_option autoImplicit false

namespace Categorial

namespace FineChart

variable {α : Type} [Scalar α] {f : FineChart α} {m : Model α} {retain : Retain} {c : CoarseChart α}

theorem retainEdge_subperm (retain : Retain) (edges : List (FineEdge α)) (e : FineEdge α) :
    (retainEdge retain edges e).Subperm (e :: edges) := by
  have hinsert : (insertByScore FineEdge.score e edges).Subperm (e :: edges) :=
    (insertByScore_perm FineEdge.score e edges).subperm
  have hold : edges.Subperm (e :: edges) := (List.sublist_cons_self e edges).subperm
  cases retain with
  | best =>
    cases edges with
    | nil => exact List.Subperm.refl _
    | cons first rest =>
      simp only [retainEdge]
      split
      · exact (List.singleton_sublist.mpr List.mem_cons_self).subperm
      · exact hold
  | kBest k =>
    simp only [retainEdge]
    split
    · exact (List.take_sublist _ _).subperm.trans hinsert
    · exact hold
  | all => exact hinsert

theorem kept_subperm (retain : Retain) (es : List (FineEdge α)) : (kept retain es).Subperm es := by
  induction es using List.reverseRecOn with
  | nil => exact List.Subperm.refl _
  | append_singleton es e ih =>
    by_cases hnil : es = []
    · subst hnil
      exact List.Subperm.refl _
    · rw [kept_append_singleton retain hnil]
      refine (retainEdge_subperm retain _ e).trans ?_
      exact (((List.subperm_cons e).mpr ih).trans (List.perm_append_singleton e es).symm.subperm)

/-- The ways to build the items of a coarse one are different, if its steps and the items below them are. -/
theorem nodup_proposals_of (hlive : ∀ id, ∀ i ∈ f.liveOf id, ∃ x, f.Has id i x)
    {item : CoarseItem} (hsteps : item.steps.toList.Nodup)
    (hbelow : ∀ step ∈ item.steps.toList, ∀ id ∈ step.children, ((f.liveItems id).map Prod.fst).Nodup) :
    ((f.proposals m item).map fun p => p.2.step).Nodup := by
  have hsub : ((f.proposals m item).map fun p => p.2.step).Sublist (item.steps.toList.flatMap f.fineSteps) := by
    unfold proposals
    rw [List.map_flatMap]
    exact flatMap_sublist fun step => edgesOf_sublist f m item step
  exact hsub.nodup (nodup_flatMap_of hsteps (fun step hstep => nodup_fineSteps (hbelow step hstep))
    fun a _ b _ step => fineSteps_inj hlive)

/-- What holds of a chart on the way: every live item is there, once, and no step is kept twice. -/
structure Once (c : CoarseChart α) (f : FineChart α) : Prop where
  coarse_eq : f.coarse = c
  has : ∀ id, ∀ i ∈ f.liveOf id, ∃ x, f.Has id i x
  live : ∀ id, (f.liveOf id).Nodup
  edges : ∀ i x, f.item? i = some x → (x.edges.map FineEdge.step).Nodup

omit [Scalar α] in
theorem once_unscored (c : CoarseChart α) : Once c (unscored c) where
  coarse_eq := rfl
  has id i h := by simp [liveOf, unscored] at h
  live id := by simp [liveOf, unscored]
  edges i x h := by simp [item?, unscored] at h

namespace Once

omit [Scalar α] in
theorem nodup_liveItems (h : Once c f) (id : CoarseId) : ((f.liveItems id).map Prod.fst).Nodup := by
  have hsub : ((f.liveItems id).map Prod.fst).Sublist ((f.liveOf id).map fun i => i) := by
    refine map_filterMap_sublist (fun i p hp => ?_) _
    obtain ⟨_, _, rfl⟩ := Option.map_eq_some_iff.mp hp
    rfl
  rw [List.map_id'] at hsub
  exact hsub.nodup (h.live id)

theorem expand (h : Once c f) {id : CoarseId} {item : CoarseItem} (hsteps : item.steps.toList.Nodup) :
    Once c (FineChart.expand m retain f (id, item)) where
  coarse_eq := h.coarse_eq
  has := live_expand h.has id item
  live id' := by
    rw [FineChart.expand, liveOf_addItems]
    split
    · exact List.nodup_range'
    · exact h.live id'
  edges i x hx := by
    rcases expand_cases h.has hx with hold | ⟨_, r, _, rfl⟩
    · exact h.edges i x hold
    · have hproposals : ((f.proposals m item).map fun p => p.2.step).Nodup :=
        nodup_proposals_of h.has hsteps fun _ _ id _ => h.nodup_liveItems id
      have hfor : ((edgesFor (f.proposals m item) r).map FineEdge.step).Nodup := by
        rw [edgesFor, List.map_map]
        exact (List.filter_sublist.map _).nodup hproposals
      obtain ⟨es, hperm, hsub⟩ := kept_subperm retain (edgesFor (f.proposals m item) r)
      exact (hperm.map FineEdge.step).nodup_iff.mp ((hsub.map _).nodup hfor)

theorem prune (h : Once c f) (cell : List CoarseId) (first : FineId) (beam : α) :
    Once c (f.prune m cell first beam) where
  coarse_eq := (coarse_prune f m cell first beam).trans h.coarse_eq
  has id i hi := by
    obtain ⟨_, ⟨_, hitem⟩, hlive⟩ := prune_spec f m cell first beam
    obtain ⟨x, hx, hid⟩ := h.has id i (hlive id i hi)
    exact ⟨_, (hitem i).trans (congrArg _ hx), hid⟩
  live id := by
    rw [liveOf_prune]
    split
    · exact (h.live id).filter _
    · exact h.live id
  edges i x hx := by
    rw [item?_prune] at hx
    obtain ⟨y, hy, rfl⟩ := Option.map_eq_some_iff.mp hx
    exact h.edges i y hy

theorem foldl_expand {entries : List (CoarseId × CoarseItem)} : ∀ {f : FineChart α}, Once c f →
    (∀ entry ∈ entries, entry.2.steps.toList.Nodup) →
    Once c (entries.foldl (FineChart.expand m retain) f) := by
  induction entries with
  | nil => exact fun h _ => h
  | cons entry entries ih =>
    intro f h hsteps
    exact ih (h.expand (hsteps entry (by simp))) fun e he => hsteps e (by simp [he])

theorem fill (h : Once c f) (hc : c.StepsOnce) {span : Span} (hspan : span.Within c.sentence.length)
    (beam : Option α) : Once c (FineChart.fill m retain beam f span) := by
  have hcell : Once c ((levels (f.coarse.itemsOver span)).foldl (FineChart.expand m retain) f) :=
    h.foldl_expand fun entry hentry => by
      rw [h.coarse_eq] at hentry
      exact hc span hspan entry.1 entry.2 (mem_levels.mp hentry)
  unfold FineChart.fill
  cases beam with
  | none => exact hcell
  | some beam => exact hcell.prune _ _ beam

theorem foldl_fill {spans : List Span} (hc : c.StepsOnce) {beam : Option α} : ∀ {f : FineChart α}, Once c f →
    (∀ span ∈ spans, span.Within c.sentence.length) → Once c (spans.foldl (FineChart.fill m retain beam) f) := by
  induction spans with
  | nil => exact fun h _ => h
  | cons span spans ih =>
    intro f h hspans
    exact ih (h.fill hc (hspans span (by simp)) beam) fun s hs => hspans s (by simp [hs])

end Once

/-- No way to build an item is kept twice, if no coarse item has a step twice. -/
theorem once_build (hc : c.StepsOnce) {beam : Option α} (h : build c m retain beam = .ok f) : Once c f := by
  have hrun : Once c ((spansOf c.sentence.length).foldl (fill m retain beam) (unscored c)) :=
    (once_unscored c).foldl_fill hc fun span hspan => mem_spansOf.mp hspan
  rw [build_ok h]
  exact ⟨hrun.coarse_eq, hrun.has, hrun.live, hrun.edges⟩

variable {tags : Supertags α}

theorem Once.nodup_roots (h : Once c f) (hc : c.Saturated tags) (hwhole : c.wholeSpan.Within c.sentence.length)
    (hroots : f.roots = f.findRoots m) : (f.roots.map Root.item).Nodup := by
  rw [hroots]
  unfold findRoots
  rw [((foldl_insertByScore_perm Root.score _).map Root.item).nodup_iff, List.map_flatMap, h.coarse_eq]
  have hitems : ∀ {id : CoarseId} {rule : RuleId} {i : FineId},
      i ∈ ((f.liveItems id).filterMap fun p => f.root? m rule p.1 p.2).map Root.item →
        ∃ x, f.Has id i x := by
    intro id rule i hi
    obtain ⟨r, hr, rfl⟩ := List.mem_map.mp hi
    obtain ⟨⟨j, x⟩, hx, hroot⟩ := List.mem_filterMap.mp hr
    obtain ⟨_, _, _, rfl⟩ := root?_eq_some.mp hroot
    exact h.has id j (mem_liveItems.mp hx).1
  refine nodup_flatMap_of (hc.nodup_itemsOver hwhole) ?_ ?_
  · rintro ⟨id, item⟩ hmem
    simp only
    split
    · refine (map_filterMap_sublist (fun p r h => ?_) (f.liveItems id)).nodup (h.nodup_liveItems id)
      obtain ⟨_, _, _, rfl⟩ := root?_eq_some.mp h
      rfl
    · exact List.nodup_nil
  · rintro ⟨id, item⟩ hmem ⟨id', item'⟩ hmem' i hi hi'
    cases htop : c.grammar.topRule? item.cat with
    | none => simp [htop] at hi
    | some rule =>
      cases htop' : c.grammar.topRule? item'.cat with
      | none => simp [htop'] at hi'
      | some rule' =>
        simp only [htop] at hi
        simp only [htop'] at hi'
        obtain ⟨x, hx⟩ := hitems hi
        obtain ⟨x', hx'⟩ := hitems hi'
        cases hx.1.symm.trans hx'.1
        obtain rfl : id = id' := hx.2.symm.trans hx'.2
        rw [CoarseChart.item_eq_of_mem hmem hmem']

end FineChart

end Categorial
