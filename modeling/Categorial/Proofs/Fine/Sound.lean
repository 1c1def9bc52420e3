import Categorial.Proofs.Coarse.Distinct
import Categorial.Proofs.Coarse.Packed
import Categorial.Proofs.Fine.Built
set_option autoImplicit false

namespace Categorial

namespace FineChart

variable {α : Type} [Scalar α] {f f' : FineChart α} {m : Model α} {retain : Retain}

/-- An item is one of those that its coarse item makes, of edges over items with smaller numbers. -/
structure Made (f : FineChart α) (m : Model α) (retain : Retain) (i : FineId) (item : FineItem α)
    (source : CoarseItem) (ps : List (Site × FineEdge α)) : Prop where
  source_eq : f.coarse.item? item.coarse = some source
  refinement : item.site.refinement ∈ refinementsOf ps
  item_eq : item = { itemOf retain item.coarse source.cat source.span ps item.site.refinement with
    pruned := item.pruned }
  built : ∀ p ∈ ps, f.Built m source p.1 p.2
  below : ∀ p ∈ ps, ∀ child ∈ p.2.step.children, child < i

/-- What holds of a chart on the way: `done` are the coarse items that have been refined. -/
structure Sound (c : CoarseChart α) (m : Model α) (retain : Retain) (done : List CoarseId)
    (f : FineChart α) : Prop where
  coarse_eq : f.coarse = c
  live : ∀ id, ∀ i ∈ f.liveOf id, ∃ item, f.Has id i item
  made : ∀ i item, f.item? i = some item → ∃ source ps, f.Made m retain i item source ps
  once : ∀ i j x y, f.item? i = some x → f.item? j = some y → x.coarse = y.coarse →
    x.site.refinement = y.site.refinement → i = j
  known : ∀ i item, f.item? i = some item → item.coarse ∈ done

theorem Sound.context_eq {c : CoarseChart α} {m : Model α} {retain : Retain} {done : List CoarseId}
    {f : FineChart α} (h : Sound c m retain done f) : f.context = ⟨c.grammar, c.sentence⟩ := by
  rw [context, h.coarse_eq]

theorem sound_unscored (c : CoarseChart α) (m : Model α) (retain : Retain) :
    Sound c m retain [] (unscored c) where
  coarse_eq := rfl
  live id i h := by simp [liveOf, unscored] at h
  made i item h := by simp [item?, unscored] at h
  once i j x y h := by simp [item?, unscored] at h
  known i item h := by simp [item?, unscored] at h

theorem Made.extend (hf : f.Extends f') {i : FineId} {item : FineItem α} {source : CoarseItem}
    {ps : List (Site × FineEdge α)} (h : f.Made m retain i item source ps) (pruned : Bool) :
    f'.Made m retain i { item with pruned } source ps where
  source_eq := by
    rw [hf.coarse_eq]
    exact h.source_eq
  refinement := h.refinement
  item_eq := by
    conv => lhs; rw [h.item_eq]
  built p hp := (h.built p hp).extend hf
  below := h.below

theorem refine_eq (hlive : ∀ id, ∀ i ∈ f.liveOf id, ∃ item, f.Has id i item) (id : CoarseId)
    (item : CoarseItem) :
    f.refine m retain id item = (refinementsOf (f.proposals m item)).map
      (itemOf retain id item.cat item.span (f.proposals m item)) :=
  foldl_addEdge retain id fun _ hp => (built_of_mem_proposals hlive hp).site_eq

theorem Built.exists_child {item : CoarseItem} {site : Site} {e : FineEdge α}
    (h : f.Built m item site e) {i : FineId} (hi : i ∈ e.step.children) : ∃ x, f.item? i = some x := by
  cases h with
  | lexical => simp [FineStep.children] at hi
  | unary _ hchild =>
    obtain rfl := List.mem_singleton.mp hi
    exact ⟨_, hchild.1⟩
  | binary _ hl hr =>
    simp only [FineStep.children, List.mem_cons, List.not_mem_nil, or_false] at hi
    rcases hi with rfl | rfl
    · exact ⟨_, hl.1⟩
    · exact ⟨_, hr.1⟩

theorem Built.exists_step {item : CoarseItem} {site : Site} {e : FineEdge α} (h : f.Built m item site e) :
    ∃ step ∈ item.steps, step.rule = e.step.rule := by
  cases h with
  | lexical hstep => exact ⟨_, hstep, rfl⟩
  | unary hstep => exact ⟨_, hstep, rfl⟩
  | binary hstep => exact ⟨_, hstep, rfl⟩

theorem Built.lexical_mem {item : CoarseItem} {site : Site} {e : FineEdge α} (h : f.Built m item site e)
    {rule : RuleId} {word : Nat} (hstep : e.step = .lexical rule word) : .lexical rule word ∈ item.steps := by
  cases h with
  | lexical hmem =>
    cases hstep
    exact hmem
  | unary => cases hstep
  | binary => cases hstep

theorem not_isBottom_of_both (hbottom : Scalar.isBottom (Scalar.bottom : α) = true) {x y : α}
    (h : Scalar.isBottom (Scalar.both x y) = false) :
    Scalar.isBottom x = false ∧ Scalar.isBottom y = false := by
  unfold Scalar.both at h
  split at h
  · rw [hbottom] at h
    cases h
  · rename_i hneither
    simpa using hneither

/-- An edge that is not impossible is over items that are not. -/
theorem Built.possible_child (hbottom : Scalar.isBottom (Scalar.bottom : α) = true) {item : CoarseItem}
    {site : Site} {e : FineEdge α} (h : f.Built m item site e)
    (hpossible : Scalar.isBottom e.score = false) {child : FineId} (hchild : child ∈ e.step.children) :
    ∃ x, f.item? child = some x ∧ Scalar.isBottom x.score = false := by
  cases h with
  | lexical => simp [FineStep.children] at hchild
  | unary _ hx =>
    obtain rfl := List.mem_singleton.mp hchild
    exact ⟨_, hx.1, (not_isBottom_of_both hbottom hpossible).2⟩
  | binary _ hl hr =>
    obtain ⟨hleft, hright⟩ := not_isBottom_of_both hbottom (not_isBottom_of_both hbottom hpossible).2
    rcases List.mem_cons.mp hchild with rfl | hchild
    · exact ⟨_, hl.1, hleft⟩
    · obtain rfl := List.mem_singleton.mp hchild
      exact ⟨_, hr.1, hright⟩

variable {c : CoarseChart α} {done : List CoarseId}

theorem item?_expand (hlive : ∀ id, ∀ i ∈ f.liveOf id, ∃ item, f.Has id i item) (id : CoarseId)
    (item : CoarseItem) (i : FineId) :
    (expand m retain f (id, item)).item? i =
      if i < f.items.size then f.item? i
      else (refinementsOf (f.proposals m item))[i - f.items.size]?.map
        (itemOf retain id item.cat item.span (f.proposals m item)) := by
  rw [expand, item?_addItems, refine_eq hlive, List.getElem?_map]

theorem expand_cases (hlive : ∀ id, ∀ i ∈ f.liveOf id, ∃ item, f.Has id i item) {id : CoarseId}
    {item : CoarseItem} {i : FineId} {x : FineItem α}
    (hx : (expand m retain f (id, item)).item? i = some x) :
    f.item? i = some x ∨ (f.items.size ≤ i ∧
      ∃ r, (refinementsOf (f.proposals m item))[i - f.items.size]? = some r ∧
        x = itemOf retain id item.cat item.span (f.proposals m item) r) := by
  rw [item?_expand hlive] at hx
  split at hx
  · exact .inl hx
  · rename_i hge
    obtain ⟨r, hr, rfl⟩ := Option.map_eq_some_iff.mp hx
    exact .inr ⟨Nat.le_of_not_lt hge, r, hr, rfl⟩

theorem live_expand (hlive : ∀ id, ∀ i ∈ f.liveOf id, ∃ item, f.Has id i item) (id : CoarseId)
    (item : CoarseItem) : ∀ id', ∀ i ∈ (expand m retain f (id, item)).liveOf id',
      ∃ x, (expand m retain f (id, item)).Has id' i x := by
  intro id' i hi
  rw [expand, liveOf_addItems] at hi
  split at hi
  · rename_i hid
    obtain ⟨hle, hlt⟩ := List.mem_range'_1.mp hi
    rw [refine_eq hlive, List.length_map] at hlt
    have hlt' : i - f.items.size < (refinementsOf (f.proposals m item)).length :=
      Nat.sub_lt_left_of_lt_add hle hlt
    have hget : (expand m retain f (id, item)).item? i = _ := item?_expand hlive id item i
    rw [if_neg (Nat.not_lt.mpr hle), List.getElem?_eq_getElem hlt'] at hget
    exact ⟨_, hget, hid⟩
  · obtain ⟨x, hx, hid⟩ := hlive id' i hi
    obtain ⟨_, hx'⟩ := (extends_addItems f id (f.refine m retain id item)).item i x hx
    exact ⟨_, hx', hid⟩

theorem Sound.expand (h : Sound c m retain done f) {id : CoarseId} {item : CoarseItem}
    (hitem : c.item? id = some item) (hnew : id ∉ done) :
    Sound c m retain (done ++ [id]) (expand m retain f (id, item)) := by
  have hext : f.Extends (FineChart.expand m retain f (id, item)) := extends_addItems f id _
  constructor
  · exact h.coarse_eq
  · exact live_expand h.live id item
  · intro i x hx
    rcases expand_cases h.live hx with hold | ⟨hle, r, hr, rfl⟩
    · obtain ⟨source, ps, hmade⟩ := h.made i x hold
      exact ⟨source, ps, hmade.extend hext x.pruned⟩
    · refine ⟨item, f.proposals m item, ?_, List.mem_of_getElem? hr, rfl, ?_, ?_⟩
      · rw [hext.coarse_eq, h.coarse_eq]
        exact hitem
      · exact fun p hp => (built_of_mem_proposals h.live hp).extend hext
      · intro p hp child hchild
        obtain ⟨_, hget⟩ := (built_of_mem_proposals h.live hp).exists_child hchild
        exact Nat.lt_of_lt_of_le (lt_size_of_item? hget) hle
  · intro i j x y hx hy hcoarse href
    rcases expand_cases h.live hx with hi | ⟨hi, r, hr, rfl⟩
    · rcases expand_cases h.live hy with hj | ⟨_, _, _, rfl⟩
      · exact h.once i j x y hi hj hcoarse href
      · -- an old item is of a coarse item that was met before
        have hcoarse : x.coarse = id := hcoarse
        exact absurd (hcoarse ▸ h.known i x hi) hnew
    · rcases expand_cases h.live hy with hj | ⟨hj, r', hr', rfl⟩
      · have hcoarse : id = y.coarse := hcoarse
        exact absurd (hcoarse ▸ h.known j y hj) hnew
      · have href : r = r' := href
        obtain ⟨hlt, heq⟩ := List.getElem?_eq_some_iff.mp hr
        obtain ⟨hlt', heq'⟩ := List.getElem?_eq_some_iff.mp hr'
        have hsame := (nodup_refinementsOf (f.proposals m item)).getElem_inj_iff.mp
          (heq.trans (href.trans heq'.symm))
        rw [← Nat.sub_add_cancel hi, hsame, Nat.sub_add_cancel hj]
  · intro i x hx
    rcases expand_cases h.live hx with hi | ⟨_, _, _, rfl⟩
    · exact List.mem_append_left _ (h.known i x hi)
    · exact List.mem_append_right _ (List.mem_singleton.mpr rfl)

omit [Scalar α] in
theorem getElem?_marked (fallen : List FineId) (items : Array (FineItem α)) (i : FineId) :
    (fallen.foldl (fun items i => items.modify i fun item => { item with pruned := true }) items)[i]? =
      items[i]?.map fun item => { item with pruned := fallen.contains i || item.pruned } := by
  induction fallen generalizing items with
  | nil => simp
  | cons first fallen ih =>
    rw [List.foldl_cons, ih, Array.getElem?_modify]
    by_cases h : first = i
    · simp [h, Function.comp_def]
    · have h' : ¬ i = first := fun he => h he.symm
      simp [h, h']

theorem getD_filtered {cell : List CoarseId} {keep : FineId → Bool}
    {live : Std.HashMap CoarseId (List FineId)} (id : CoarseId) :
    (cell.foldl (fun live id => live.insert id ((live.getD id []).filter keep)) live).getD id [] =
      if id ∈ cell then (live.getD id []).filter keep else live.getD id [] := by
  induction cell generalizing live with
  | nil => simp
  | cons first cell ih =>
    rw [List.foldl_cons, ih, Std.HashMap.getD_insert]
    by_cases hfirst : first = id
    · simp [hfirst, List.filter_filter]
    · have hne : ¬ id = first := fun he => hfirst he.symm
      simp [hfirst, hne]

/-- The beam over the items from `first` on marks this one. -/
def falls (f : FineChart α) (m : Model α) (first : FineId) (beam : α) (i : FineId) : Bool :=
  (f.threshold? m first beam).any fun threshold =>
    decide (first ≤ i) && (f.item? i).any fun item => Scalar.lt (f.meritOf m item) threshold

theorem coarse_prune (f : FineChart α) (m : Model α) (cell : List CoarseId) (first : FineId) (beam : α) :
    (f.prune m cell first beam).coarse = f.coarse := by
  unfold prune
  split <;> rfl

theorem contains_fallen {threshold : α} {first : FineId} {beam : α}
    (hthreshold : f.threshold? m first beam = some threshold) (i : FineId) :
    ((List.range' first (f.items.size - first)).filter fun i =>
      (f.items[i]?).any fun item => Scalar.lt (f.meritOf m item) threshold).contains i =
        f.falls m first beam i := by
  rw [Bool.eq_iff_iff, List.contains_iff_mem, List.mem_filter, List.mem_range'_1, falls, hthreshold]
  simp only [Option.any_some, Bool.and_eq_true, decide_eq_true_eq, Option.any_eq_true, item?]
  constructor
  · rintro ⟨⟨hle, _⟩, hitem⟩
    exact ⟨hle, hitem⟩
  · rintro ⟨hle, x, hx, hlt⟩
    have hsize := lt_size_of_item? hx
    have hend : first + (f.items.size - first) = f.items.size :=
      Nat.add_sub_of_le (Nat.le_of_lt (Nat.lt_of_le_of_lt hle hsize))
    exact ⟨⟨hle, hsize.trans_eq hend.symm⟩, x, hx, hlt⟩

theorem item?_prune (f : FineChart α) (m : Model α) (cell : List CoarseId) (first : FineId) (beam : α)
    (i : FineId) : (f.prune m cell first beam).item? i =
      (f.item? i).map fun item => { item with pruned := f.falls m first beam i || item.pruned } := by
  unfold prune
  split
  · rename_i hnone
    simp [falls, hnone]
  · rename_i hsome
    rw [item?, getElem?_marked, contains_fallen hsome]
    rfl

theorem liveOf_prune (f : FineChart α) (m : Model α) (cell : List CoarseId) (first : FineId) (beam : α)
    (id : CoarseId) : (f.prune m cell first beam).liveOf id =
      if id ∈ cell then (f.liveOf id).filter fun i => !f.falls m first beam i else f.liveOf id := by
  unfold prune
  split
  · rename_i hnone
    simp [falls, hnone]
  · rename_i hsome
    rw [liveOf, getD_filtered]
    simp only [contains_fallen hsome]
    rfl

theorem prune_spec (f : FineChart α) (m : Model α) (cell : List CoarseId) (first : FineId) (beam : α) :
    (f.prune m cell first beam).coarse = f.coarse ∧
    (∃ mark : FineId → Bool, ∀ i, (f.prune m cell first beam).item? i =
      (f.item? i).map fun item => { item with pruned := mark i || item.pruned }) ∧
    ∀ id, ∀ i ∈ (f.prune m cell first beam).liveOf id, i ∈ f.liveOf id := by
  refine ⟨coarse_prune f m cell first beam, ⟨_, item?_prune f m cell first beam⟩, fun id i hi => ?_⟩
  rw [liveOf_prune] at hi
  split at hi
  · exact List.mem_of_mem_filter hi
  · exact hi

theorem Sound.prune (h : Sound c m retain done f) (cell : List CoarseId) (first : FineId) (beam : α) :
    Sound c m retain done (f.prune m cell first beam) := by
  obtain ⟨hcoarse, ⟨mark, hitem⟩, hlive⟩ := prune_spec f m cell first beam
  have hext : f.Extends (f.prune m cell first beam) := ⟨hcoarse, fun i x hx => by
    rw [hitem, hx]
    exact ⟨_, rfl⟩⟩
  have hold : ∀ i x, (f.prune m cell first beam).item? i = some x →
      ∃ y, f.item? i = some y ∧ x = { y with pruned := mark i || y.pruned } := by
    intro i x hx
    rw [hitem] at hx
    obtain ⟨y, hy, rfl⟩ := Option.map_eq_some_iff.mp hx
    exact ⟨y, hy, rfl⟩
  constructor
  · exact hcoarse.trans h.coarse_eq
  · intro id i hi
    obtain ⟨x, hx, hid⟩ := h.live id i (hlive id i hi)
    obtain ⟨_, hx'⟩ := hext.item i x hx
    exact ⟨_, hx', hid⟩
  · intro i x hx
    obtain ⟨y, hy, rfl⟩ := hold i x hx
    obtain ⟨source, ps, hmade⟩ := h.made i y hy
    exact ⟨source, ps, hmade.extend hext _⟩
  · intro i j x y hx hy hcoarse href
    obtain ⟨x', hx', rfl⟩ := hold i x hx
    obtain ⟨y', hy', rfl⟩ := hold j y hy
    exact h.once i j x' y' hx' hy' hcoarse href
  · intro i x hx
    obtain ⟨y, hy, rfl⟩ := hold i x hx
    exact h.known i y hy

theorem Sound.setRoots (h : Sound c m retain done f) (roots : List (Root α)) :
    Sound c m retain done { f with roots } where
  coarse_eq := h.coarse_eq
  live := h.live
  made i x hx := by
    obtain ⟨source, ps, hmade⟩ := h.made i x hx
    have hext : f.Extends { f with roots } := ⟨rfl, fun i x hx => ⟨x.pruned, hx⟩⟩
    exact ⟨source, ps, hmade.extend hext x.pruned⟩
  once := h.once
  known := h.known

theorem Sound.foldl_expand {entries : List (CoarseId × CoarseItem)} :
    ∀ {f : FineChart α} {done : List CoarseId}, Sound c m retain done f →
      (∀ entry ∈ entries, c.item? entry.1 = some entry.2) →
      (done ++ entries.map Prod.fst).Nodup →
      Sound c m retain (done ++ entries.map Prod.fst)
        (entries.foldl (FineChart.expand m retain) f) := by
  induction entries with
  | nil =>
    intro f done h _ _
    simpa using h
  | cons entry entries ih =>
    intro f done h hitem hnodup
    rw [List.map_cons, List.append_cons] at hnodup ⊢
    rw [List.foldl_cons]
    have hnew : entry.1 ∉ done := not_mem_of_nodup hnodup
    exact ih (h.expand (hitem entry (by simp)) hnew) (fun e he => hitem e (by simp [he])) hnodup

theorem mem_levels {cell : List (CoarseId × CoarseItem)} {entry : CoarseId × CoarseItem} :
    entry ∈ levels cell ↔ entry ∈ cell := by
  cases h : entry.2.level <;> simp [levels, h]

/-- The cells of a coarse chart in the order in which they are refined. -/
def cellsOf (c : CoarseChart α) (spans : List Span) : List (CoarseId × CoarseItem) :=
  spans.flatMap fun span => levels (c.itemsOver span)

theorem Sound.foldl_fill {beam : Option α} {spans : List Span} :
    ∀ {f : FineChart α} {done : List CoarseId}, Sound c m retain done f →
      (done ++ (cellsOf c spans).map Prod.fst).Nodup →
      Sound c m retain (done ++ (cellsOf c spans).map Prod.fst)
        (spans.foldl (fill m retain beam) f) := by
  induction spans with
  | nil =>
    intro f done h _
    simpa [cellsOf] using h
  | cons span spans ih =>
    intro f done h hnodup
    have hcells : cellsOf c (span :: spans) = levels (c.itemsOver span) ++ cellsOf c spans := rfl
    rw [hcells, List.map_append, ← List.append_assoc] at hnodup ⊢
    rw [List.foldl_cons]
    have hentries : ∀ entry ∈ levels (c.itemsOver span), c.item? entry.1 = some entry.2 := by
      intro entry hentry
      exact CoarseChart.item?_of_mem (mem_levels.mp hentry)
    have hcell := h.foldl_expand hentries (List.nodup_append.mp hnodup).1
    refine ih ?_ hnodup
    unfold fill
    rw [h.coarse_eq]
    cases beam with
    | none => exact hcell
    | some beam => exact hcell.prune _ _ _

theorem nodup_levels {cell : List (CoarseId × CoarseItem)} (h : (cell.map Prod.fst).Nodup) :
    ((levels cell).map Prod.fst).Nodup := by
  have hsub : ∀ keep : CoarseId × CoarseItem → Bool, ((cell.filter keep).map Prod.fst).Nodup :=
    fun keep => (List.filter_sublist.map Prod.fst).nodup h
  rw [levels, List.map_append, List.nodup_append]
  refine ⟨hsub _, hsub _, ?_⟩
  intro a ha b hb hab
  obtain ⟨p, hp, rfl⟩ := List.mem_map.mp ha
  obtain ⟨q, hq, rfl⟩ := List.mem_map.mp hb
  obtain ⟨hp, hbase⟩ := List.mem_filter.mp hp
  obtain ⟨hq, hunary⟩ := List.mem_filter.mp hq
  obtain rfl := List.inj_on_of_nodup_map h hp hq hab
  simp_all

variable {tags : Supertags α}

theorem nodup_cellsOf (hc : c.Saturated tags) :
    ((cellsOf c (spansOf c.sentence.length)).map Prod.fst).Nodup := by
  unfold cellsOf
  rw [List.map_flatMap]
  refine nodup_flatMap_of ((spansOf_pairwise _).imp fun h => h.1) ?_ ?_
  · intro span hspan
    obtain ⟨first, hitems⟩ := hc.items_eq span (mem_spansOf.mp hspan)
    refine nodup_levels ?_
    rw [hitems]
    exact nodup_numbered first _
  · intro a ha b hb id hid hid'
    obtain ⟨⟨_, x⟩, hx, rfl⟩ := List.mem_map.mp hid
    obtain ⟨⟨_, y⟩, hy, heq⟩ := List.mem_map.mp hid'
    obtain rfl := heq
    have hx := mem_levels.mp hx
    have hy := mem_levels.mp hy
    have hspans : x.span = y.span := by rw [CoarseChart.item_eq_of_mem hx hy]
    rwa [hc.span_eq (mem_spansOf.mp ha) hx, hc.span_eq (mem_spansOf.mp hb) hy] at hspans

/-- What a fine pass does, once the model is one of the chart's grammar. -/
theorem build_ok {beam : Option α} (h : build c m retain beam = .ok f) :
    f = { (spansOf c.sentence.length).foldl (fill m retain beam) (unscored c) with
      roots := f.findRoots m } := by
  unfold build at h
  obtain ⟨_, _, h⟩ := except_bind_eq_ok.mp h
  cases h
  rfl

theorem exists_build (c : CoarseChart α) {m : Model α} (hm : m.grammarId = c.grammar.id) (retain : Retain)
    (beam : Option α) : ∃ f, build c m retain beam = .ok f := by
  simp [build, Grammar.check, hm, bind, Except.bind]

theorem sound_build {beam : Option α} (hc : c.Saturated tags) (h : build c m retain beam = .ok f) :
    Sound c m retain ((cellsOf c (spansOf c.sentence.length)).map Prod.fst) f := by
  have hrun : Sound c m retain _ ((spansOf c.sentence.length).foldl (fill m retain beam) (unscored c)) :=
    (sound_unscored c m retain).foldl_fill (nodup_cellsOf hc)
  rw [build_ok h]
  exact hrun.setRoots _

end FineChart

end Categorial
