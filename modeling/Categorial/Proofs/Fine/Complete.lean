import Categorial.Proofs.Fine.Roots
set_option autoImplicit false

namespace Categorial

namespace FineChart

variable {α : Type} [Scalar α] {f f' : FineChart α} {m : Model α} {retain : Retain}

theorem edgesOf_congr (hcoarse : f'.coarse = f.coarse) {item : CoarseItem} {step : CoarseStep}
    (hlive : ∀ id ∈ step.children, f'.liveItems id = f.liveItems id) :
    f'.edgesOf m item step = f.edgesOf m item step := by
  have hctx : f'.context = f.context := by simp only [context, hcoarse]
  cases step with
  | lexical rule word => simp only [edgesOf, hctx]
  | unary rule child =>
    simp only [edgesOf, hctx, hlive child (by simp [CoarseStep.children])]
  | binary rule l r =>
    simp only [edgesOf, hctx, hlive l (by simp [CoarseStep.children]),
      hlive r (by simp [CoarseStep.children])]

theorem proposals_congr (hcoarse : f'.coarse = f.coarse) {item : CoarseItem}
    (hlive : ∀ step ∈ item.steps, ∀ id ∈ step.children, f'.liveItems id = f.liveItems id) :
    f'.proposals m item = f.proposals m item :=
  List.flatMap_congr fun step hstep =>
    edgesOf_congr hcoarse (hlive step (Array.mem_toList_iff.mp hstep))

theorem liveItems_expand_self (f : FineChart α) (m : Model α) (retain : Retain) (id : CoarseId)
    (item : CoarseItem) :
    (expand m retain f (id, item)).liveItems id =
      numbered f.items.size (f.refine m retain id item) := by
  unfold liveItems expand
  rw [liveOf_addItems, if_pos rfl]
  exact lookup_numbered f.items _

variable {c : CoarseChart α} {done : List CoarseId}

theorem Sound.liveItems_expand_of_ne (h : Sound c m retain done f) {entry : CoarseId × CoarseItem}
    {id : CoarseId} (hne : entry.1 ≠ id) :
    (FineChart.expand m retain f entry).liveItems id = f.liveItems id := by
  unfold liveItems FineChart.expand
  rw [liveOf_addItems, if_neg hne]
  refine List.filterMap_congr fun i hi => ?_
  obtain ⟨x, hx, _⟩ := h.live id i hi
  rw [item?_addItems, if_pos (lt_size_of_item? hx)]

def AllLive (f : FineChart α) : Prop := ∀ i x, f.item? i = some x → i ∈ f.liveOf x.coarse

theorem Sound.allLive_expand (h : Sound c m retain done f) (hall : f.AllLive) {id : CoarseId}
    {item : CoarseItem} (hnew : id ∉ done) : (FineChart.expand m retain f (id, item)).AllLive := by
  intro i x hx
  rw [item?_expand h.live] at hx
  rw [FineChart.expand, liveOf_addItems]
  split at hx
  · have hne : id ≠ x.coarse := fun he => hnew (he ▸ h.known i x hx)
    rw [if_neg hne]
    exact hall i x hx
  · rename_i hge
    obtain ⟨r, hr, rfl⟩ := Option.map_eq_some_iff.mp hx
    obtain ⟨hlt, _⟩ := List.getElem?_eq_some_iff.mp hr
    have hid : id = (itemOf retain id item.cat item.span (f.proposals m item) r).coarse := rfl
    rw [if_pos hid, refine_eq h.live, List.length_map]
    have hle : f.items.size ≤ i := Nat.le_of_not_lt hge
    exact List.mem_range'_1.mpr ⟨hle, (Nat.sub_lt_iff_lt_add' hle).mp hlt⟩

theorem Sound.run_expand {entries : List (CoarseId × CoarseItem)} :
    ∀ {f : FineChart α} {done : List CoarseId}, Sound c m retain done f → f.AllLive →
      (∀ entry ∈ entries, c.item? entry.1 = some entry.2) → (done ++ entries.map Prod.fst).Nodup →
      (entries.foldl (FineChart.expand m retain) f).AllLive ∧
        ∀ id, id ∉ entries.map Prod.fst →
          (entries.foldl (FineChart.expand m retain) f).liveItems id = f.liveItems id := by
  induction entries with
  | nil => exact fun _ hall _ _ => ⟨hall, fun _ _ => rfl⟩
  | cons entry entries ih =>
    intro f done h hall hitem hnodup
    rw [List.map_cons, List.append_cons] at hnodup
    have hnew : entry.1 ∉ done := not_mem_of_nodup hnodup
    have hstep := h.expand (hitem entry (by simp)) hnew
    obtain ⟨hall', hframe⟩ := ih hstep (h.allLive_expand hall hnew) (fun e he => hitem e (by simp [he]))
      hnodup
    refine ⟨hall', fun id hid => ?_⟩
    simp only [List.map_cons, List.mem_cons, not_or] at hid
    exact (hframe id hid.2).trans (h.liveItems_expand_of_ne fun he => hid.1 he.symm)

theorem foldl_fill_none {spans : List Span} : ∀ {f : FineChart α}, f.coarse = c →
    spans.foldl (fill m retain none) f = (cellsOf c spans).foldl (expand m retain) f := by
  induction spans with
  | nil => exact fun _ => rfl
  | cons span spans ih =>
    rintro f rfl
    have hkeep : ∀ (entries : List (CoarseId × CoarseItem)) (f : FineChart α),
        (entries.foldl (expand m retain) f).coarse = f.coarse := by
      intro entries
      induction entries with
      | nil => exact fun _ => rfl
      | cons entry entries ih => exact fun f => (ih _).trans rfl
    have hcells : cellsOf f.coarse (span :: spans) =
      levels (f.coarse.itemsOver span) ++ cellsOf f.coarse spans := rfl
    rw [List.foldl_cons, hcells, List.foldl_append]
    exact ih (hkeep _ f)

/-- The second is not taken by a step of the first. -/
def Unused (a b : CoarseId × CoarseItem) : Prop :=
  ∀ step ∈ a.2.steps, b.1 ∉ step.children

variable {tags : Supertags α}

theorem unused_of_mem (hc : c.Saturated tags) (hg : c.grammar.Indexed) {a b : Span}
    (ha : a.Within c.sentence.length) (hb : b.Within c.sentence.length) {x y : CoarseId × CoarseItem}
    (hx : x ∈ c.itemsOver a) (hy : y ∈ c.itemsOver b)
    (hlate : a ≠ b ∧ a.length ≤ b.length ∨ a = b ∧ (x.2.level = .unary → y.2.level = .unary)) :
    Unused x y := by
  intro step hstep hchild
  obtain ⟨sub, z, hsub, hz, hbefore⟩ := hc.child hg ha hx hstep hchild
  obtain rfl : sub = b := hc.span_unique hsub hb hz hy
  rcases hbefore with hlt | ⟨rfl, hbase, hunary⟩
  · rcases hlate with ⟨_, hle⟩ | ⟨rfl, _⟩
    · omega
    · omega
  · rcases hlate with ⟨hne, _⟩ | ⟨_, hlevel⟩
    · exact hne rfl
    · have hz' := CoarseChart.item_eq_of_mem hz hy
      rw [← hz', hbase] at hlevel
      exact absurd (hlevel hunary) (by decide)

theorem pairwise_unused (hc : c.Saturated tags) (hg : c.grammar.Indexed) :
    (cellsOf c (spansOf c.sentence.length)).Pairwise Unused := by
  unfold cellsOf
  rw [List.pairwise_flatMap]
  constructor
  · intro span hspan
    have hspan := mem_spansOf.mp hspan
    have hpair : ∀ {xs : List (CoarseId × CoarseItem)},
        (∀ x ∈ xs, ∀ y ∈ xs, Unused x y) → xs.Pairwise Unused :=
      fun h => List.pairwise_of_forall_mem_list h
    have hunused : ∀ x ∈ c.itemsOver span, ∀ y ∈ c.itemsOver span,
        (x.2.level = .unary → y.2.level = .unary) → Unused x y := fun x hx y hy hlevel =>
      unused_of_mem hc hg hspan hspan hx hy (.inr ⟨rfl, hlevel⟩)
    refine List.pairwise_append.mpr ⟨hpair ?_, hpair ?_, ?_⟩
    · intro x hx y hy
      simp only [List.mem_filter, beq_iff_eq] at hx hy
      exact hunused x hx.1 y hy.1 fun h => by simp [hx.2] at h
    · intro x hx y hy
      simp only [List.mem_filter, beq_iff_eq] at hx hy
      exact hunused x hx.1 y hy.1 fun _ => hy.2
    · intro x hx y hy
      simp only [List.mem_filter, beq_iff_eq] at hx hy
      exact hunused x hx.1 y hy.1 fun _ => hy.2
  · refine (spansOf_pairwise c.sentence.length).imp_of_mem fun {a b} ha hb hab x hx y hy => ?_
    exact unused_of_mem hc hg (mem_spansOf.mp ha) (mem_spansOf.mp hb) (mem_levels.mp hx)
      (mem_levels.mp hy) (.inl hab)

theorem liveItems_foldl {before after : List (CoarseId × CoarseItem)} {entry : CoarseId × CoarseItem}
    (hitem : ∀ x ∈ before ++ entry :: after, c.item? x.1 = some x.2)
    (hnodup : ((before ++ entry :: after).map Prod.fst).Nodup)
    (hself : Unused entry entry) (hlater : ∀ x ∈ after, Unused entry x)
    (hf : f = (before ++ entry :: after).foldl (expand m retain) (unscored c)) :
    ∃ first, f.liveItems entry.1 = numbered first (f.refine m retain entry.1 entry.2) := by
  obtain ⟨id, item⟩ := entry
  rw [List.foldl_append, List.foldl_cons] at hf
  rw [List.map_append, List.map_cons] at hnodup
  obtain ⟨hbefore, _, hdisjoint⟩ := List.nodup_append.mp hnodup
  have hnew : id ∉ before.map Prod.fst := fun hmem => hdisjoint id hmem id (by simp) rfl
  have hitemBefore : ∀ x ∈ before, c.item? x.1 = some x.2 := fun x hx => hitem x (by simp [hx])
  -- the chart `here` meets the coarse item, the next one has its items
  have hhere := (sound_unscored c m retain).foldl_expand hitemBefore hbefore
  have hempty : (unscored c).AllLive := fun i x hx => by simp [item?, unscored] at hx
  have hall := ((sound_unscored c m retain).run_expand hempty hitemBefore hbefore).1
  rw [List.nil_append] at hhere
  generalize before.foldl (expand m retain) (unscored c) = here at hf hhere hall
  have hnext := hhere.expand (hitem (id, item) (by simp)) hnew
  rw [List.append_cons] at hnodup
  have hnotSelf : id ∉ after.map Prod.fst := fun hmem =>
    (List.nodup_append.mp hnodup).2.2 id (by simp) id hmem rfl
  have hitemAfter : ∀ x ∈ after, c.item? x.1 = some x.2 := fun x hx => hitem x (by simp [hx])
  have hframe := (hnext.run_expand (hhere.allLive_expand hall hnew) hitemAfter hnodup).2
  rw [← hf] at hframe
  have hproposals : f.proposals m item = here.proposals m item := by
    have hcoarse : f.coarse = here.coarse := by
      rw [hf, (hnext.foldl_expand hitemAfter hnodup).coarse_eq, hhere.coarse_eq]
    refine proposals_congr hcoarse fun step hstep child hchild => ?_
    have hnot : child ∉ after.map Prod.fst := by
      intro hmem
      obtain ⟨later, hl, rfl⟩ := List.mem_map.mp hmem
      exact hlater later hl step hstep hchild
    rw [hframe child hnot]
    exact hhere.liveItems_expand_of_ne fun he => hself step hstep (he ▸ hchild)
  have hrefine : f.refine m retain id item = here.refine m retain id item :=
    congrArg (List.foldl (addEdge retain id) []) hproposals
  exact ⟨here.items.size, by rw [hframe id hnotSelf, liveItems_expand_self, hrefine]⟩

/-- In the chart of a pass without a beam, the live items of a coarse item are those that its steps make;
no item is missing among the live ones. -/
theorem complete_build (hc : c.Saturated tags) (hg : c.grammar.Indexed)
    (h : build c m retain none = .ok f) :
    f.AllLive ∧ ∀ span, span.Within c.sentence.length → ∀ id item, (id, item) ∈ c.itemsOver span →
      ∃ first, f.liveItems id = numbered first (f.refine m retain id item) := by
  have hrun := build_ok h
  rw [foldl_fill_none (c := c) rfl] at hrun
  have hitem : ∀ entry ∈ cellsOf c (spansOf c.sentence.length), c.item? entry.1 = some entry.2 := by
    intro entry hentry
    obtain ⟨span, _, hmem⟩ := List.mem_flatMap.mp hentry
    exact CoarseChart.item?_of_mem (mem_levels.mp hmem)
  have hnodup := nodup_cellsOf hc
  constructor
  · have hempty : (unscored c).AllLive := fun i x hx => by simp [item?, unscored] at hx
    rw [hrun]
    exact ((sound_unscored c m retain).run_expand hempty hitem hnodup).1
  · intro span hspan id item hmem
    have hentry : (id, item) ∈ cellsOf c (spansOf c.sentence.length) :=
      List.mem_flatMap.mpr ⟨span, mem_spansOf.mpr hspan, mem_levels.mpr hmem⟩
    have horder := pairwise_unused hc hg
    obtain ⟨before, after, hsplit⟩ := List.append_of_mem hentry
    rw [hsplit] at hrun hitem hnodup horder
    obtain ⟨_, hafter, _⟩ := List.pairwise_append.mp horder
    have hself : Unused (id, item) (id, item) :=
      unused_of_mem hc hg hspan hspan hmem hmem (.inr ⟨rfl, fun h => h⟩)
    have hlive := liveItems_foldl hitem hnodup hself (List.pairwise_cons.mp hafter).1
      (rfl : _ = List.foldl (expand m retain) (unscored c) _)
    rw [hrun]
    exact hlive

/-- The chart of a pass without a beam. -/
structure Finished (c : CoarseChart α) (m : Model α) (retain : Retain) (f : FineChart α) : Prop where
  sound : Sound c m retain ((cellsOf c (spansOf c.sentence.length)).map Prod.fst) f
  allLive : f.AllLive
  liveItems_eq : ∀ span, span.Within c.sentence.length → ∀ id item, (id, item) ∈ c.itemsOver span →
    ∃ first, f.liveItems id = numbered first (f.refine m retain id item)
  roots_eq : f.roots = f.findRoots m

theorem finished_build (hc : c.Saturated tags) (hg : c.grammar.Indexed)
    (h : build c m retain none = .ok f) : Finished c m retain f where
  sound := sound_build hc h
  allLive := (complete_build hc hg h).1
  liveItems_eq := (complete_build hc hg h).2
  roots_eq := congrArg FineChart.roots (build_ok h)

namespace Finished

variable (hf : Finished c m retain f)

include hf

theorem mem_liveItems_iff {id : CoarseId} {i : FineId} {x : FineItem α} :
    (i, x) ∈ f.liveItems id ↔ f.Has id i x := by
  rw [mem_liveItems]
  constructor
  · rintro ⟨hi, hx⟩
    obtain ⟨y, hy⟩ := hf.sound.live id i hi
    cases hx.symm.trans hy.1
    exact hy
  · rintro ⟨hx, rfl⟩
    exact ⟨hf.allLive i x hx, hx⟩

theorem mem_proposals_iff {item : CoarseItem} {site : Site} {e : FineEdge α} :
    (site, e) ∈ f.proposals m item ↔ f.Built m item site e := by
  refine ⟨built_of_mem_proposals hf.sound.live, fun h => ?_⟩
  unfold proposals
  rw [List.mem_flatMap]
  cases h with
  | lexical hstep hsite hx =>
    subst hsite
    refine ⟨_, Array.mem_toList_iff.mpr hstep, ?_⟩
    simp only [edgesOf, Option.mem_toList, edge?_eq_some]
    exact ⟨_, hx, rfl⟩
  | @unary rule id i child _ x hstep hchild hsite hx =>
    subst hsite
    refine ⟨_, Array.mem_toList_iff.mpr hstep, ?_⟩
    simp only [edgesOf, List.mem_filterMap, edge?_eq_some]
    exact ⟨(i, child), hf.mem_liveItems_iff.mpr hchild, x, hx, rfl⟩
  | @binary rule l r i j left right _ x hstep hl hr hsite hx =>
    subst hsite
    refine ⟨_, Array.mem_toList_iff.mpr hstep, ?_⟩
    simp only [edgesOf, List.mem_flatMap, List.mem_filterMap, edge?_eq_some]
    exact ⟨(i, left), hf.mem_liveItems_iff.mpr hl, (j, right), hf.mem_liveItems_iff.mpr hr, x, hx, rfl⟩

variable {span : Span} {id : CoarseId} {item : CoarseItem}

theorem has_iff (hspan : span.Within c.sentence.length) (hmem : (id, item) ∈ c.itemsOver span)
    {x : FineItem α} : (∃ i, f.Has id i x) ↔ ∃ r ∈ refinementsOf (f.proposals m item),
      x = itemOf retain id item.cat item.span (f.proposals m item) r := by
  obtain ⟨first, hlive⟩ := hf.liveItems_eq span hspan id item hmem
  have hsnd : (∃ i, (i, x) ∈ f.liveItems id) ↔ x ∈ f.refine m retain id item := by
    conv => rhs; rw [← map_snd_numbered first (f.refine m retain id item), ← hlive]
    simp
  simp only [← hf.mem_liveItems_iff]
  rw [hsnd, refine_eq hf.sound.live, List.mem_map]
  simp only [eq_comm]

theorem exists_item (hspan : span.Within c.sentence.length) (hmem : (id, item) ∈ c.itemsOver span)
    {site : Site} {e : FineEdge α} (h : f.Built m item site e) :
    (∃ i, f.Has id i (itemOf retain id item.cat item.span (f.proposals m item) site.refinement)) ∧
      e ∈ edgesFor (f.proposals m item) site.refinement := by
  have hmemp := hf.mem_proposals_iff.mpr h
  exact ⟨(hf.has_iff hspan hmem).mpr ⟨_, mem_refinementsOf.mpr ⟨_, hmemp, rfl⟩, rfl⟩,
    mem_edgesFor.mpr ⟨site, hmemp, rfl⟩⟩

theorem site_eq (hspan : span.Within c.sentence.length) (hmem : (id, item) ∈ c.itemsOver span)
    {i : FineId} {x : FineItem α} (hx : f.Has id i x) :
    x.site.cat = item.cat ∧ x.site.span = item.span := by
  obtain ⟨r, _, rfl⟩ := (hf.has_iff hspan hmem).mp ⟨i, hx⟩
  exact ⟨rfl, rfl⟩

/-- Every item with a start category over the whole sentence makes a root, unless the model rules it
out. -/
theorem mem_roots {r : Root α} : r ∈ f.roots ↔ ∃ id item x, (id, item) ∈ c.itemsOver c.wholeSpan ∧
    c.grammar.topRule? item.cat = some r.rule ∧ f.Has id r.item x ∧
      m.score f.context (.top r.rule x.site) = .ok r.localScore ∧
      r.score = Scalar.both r.localScore x.score ∧ Scalar.isBottom r.score = false := by
  refine ⟨hf.sound.root_of_mem hf.roots_eq, ?_⟩
  rintro ⟨id, item, x, hmem, htop, hx, hlocal, hscore, hbottom⟩
  rw [hf.roots_eq, mem_findRoots, hf.sound.coarse_eq]
  refine ⟨id, item, r.rule, r.item, x, hmem, htop, hf.mem_liveItems_iff.mpr hx, ?_⟩
  rw [hscore] at hbottom
  refine root?_eq_some.mpr ⟨_, hlocal, hbottom, ?_⟩
  rw [← hscore]

end Finished

end FineChart

end Categorial
