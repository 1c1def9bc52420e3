import Categorial.Proofs.Coarse.Cell
import Categorial.Proofs.Lists
import Mathlib.Tactic.Ring
set_option autoImplicit false

namespace Categorial

/-- A stretch of a sentence of `n` words that is not empty. -/
def Span.Within (n : Nat) (span : Span) : Prop := span.start < span.stop ∧ span.stop ≤ n

theorem mem_spansOf {n : Nat} {span : Span} : span ∈ spansOf n ↔ span.Within n := by
  obtain ⟨start, stop⟩ := span
  simp only [spansOf, List.mem_flatMap, List.mem_map, List.mem_range, Span.mk.injEq, Span.Within]
  constructor
  · rintro ⟨shorter, hs, start', hst, rfl, rfl⟩
    omega
  · rintro ⟨hlt, hle⟩
    exact ⟨stop - start - 1, by omega, start, by omega, rfl, by omega⟩

theorem spansOf_pairwise (n : Nat) :
    (spansOf n).Pairwise fun a b => a ≠ b ∧ a.length ≤ b.length := by
  unfold spansOf
  rw [List.pairwise_flatMap]
  constructor
  · intro shorter _
    rw [List.pairwise_map]
    refine List.nodup_range.imp fun {a b} hne => ?_
    simp only [ne_eq, Span.mk.injEq, Span.length]
    omega
  · refine List.pairwise_lt_range.imp fun {a b} hlt => ?_
    simp only [List.mem_map, List.mem_range]
    rintro _ ⟨i, _, rfl⟩ _ ⟨j, _, rfl⟩
    simp only [ne_eq, Span.mk.injEq, Span.length]
    omega

namespace CoarseChart

variable {α : Type}

theorem cellNumber_lt {c : CoarseChart α} {span : Span} (h : span.Within c.sentence.length) :
    c.cellNumber span < c.sentence.length * c.sentence.length := by
  obtain ⟨hlt, hle⟩ := h
  unfold cellNumber
  have hrow : (span.start + 1) * c.sentence.length ≤ c.sentence.length * c.sentence.length :=
    Nat.mul_le_mul_right _ (by omega)
  rw [Nat.succ_mul] at hrow
  omega

theorem cellNumber_inj {c : CoarseChart α} {a b : Span} (ha : a.Within c.sentence.length)
    (hb : b.Within c.sentence.length) (h : c.cellNumber a = c.cellNumber b) : a = b := by
  obtain ⟨halt, hale⟩ := ha
  obtain ⟨hblt, hble⟩ := hb
  have hnumber : ∀ s : Span, s.start < s.stop → s.stop ≤ c.sentence.length →
      c.cellNumber s / c.sentence.length = s.start ∧
        c.cellNumber s % c.sentence.length = s.stop - 1 := by
    intro s hlt hle
    have heq : c.cellNumber s = c.sentence.length * s.start + (s.stop - 1) := by
      unfold cellNumber
      rw [Nat.mul_comm]
      omega
    rw [heq, Nat.mul_add_div (by omega), Nat.mul_add_mod, Nat.div_eq_of_lt (by omega),
      Nat.mod_eq_of_lt (by omega)]
    exact ⟨rfl, rfl⟩
  obtain ⟨hda, hma⟩ := hnumber a halt hale
  obtain ⟨hdb, hmb⟩ := hnumber b hblt hble
  rw [h] at hda hma
  obtain ⟨sa, ea⟩ := a
  obtain ⟨sb, eb⟩ := b
  simp only at *
  simp only [Span.mk.injEq]
  omega

/-- The table of cells has its size, and cells name items that exist. -/
structure Sized (c : CoarseChart α) : Prop where
  cells_size : c.cells.size = c.sentence.length * c.sentence.length
  ids_lt : ∀ (span : Span) (id : Nat), id ∈ c.cell span → id < c.items.size

theorem sized_empty (g : Grammar) (s : Sentence) (beta : α) : (empty g s beta).Sized where
  cells_size := by simp [empty]
  ids_lt span id h := by
    simp only [cell, empty, Array.getElem?_replicate] at h
    split at h <;> simp at h

theorem cell_addCell {c : CoarseChart α} (hc : c.Sized) {span : Span}
    (hspan : span.Within c.sentence.length) (items : Array CoarseItem) (span' : Span) :
    (c.addCell span items).cell span' =
      if c.cellNumber span = c.cellNumber span' then List.range' c.items.size items.size
      else c.cell span' := by
  have hlt : c.cellNumber span < c.cells.size := by
    rw [hc.cells_size]
    exact cellNumber_lt hspan
  have hnumber : (c.addCell span items).cellNumber span' = c.cellNumber span' := rfl
  unfold cell
  rw [hnumber]
  simp only [addCell, Array.getElem?_setIfInBounds, hlt]
  split
  · simp
  · rfl

theorem sized_addCell {c : CoarseChart α} (hc : c.Sized) {span : Span}
    (hspan : span.Within c.sentence.length) (items : Array CoarseItem) :
    (c.addCell span items).Sized where
  cells_size := by simpa [addCell] using hc.cells_size
  ids_lt span' id h := by
    have hsize : (c.addCell span items).items.size = c.items.size + items.size := by simp [addCell]
    rw [cell_addCell hc hspan] at h
    rw [hsize]
    split at h
    · have := List.mem_range'_1.mp h
      omega
    · have := hc.ids_lt span' id h
      omega

theorem itemsOver_addCell_self {c : CoarseChart α} (hc : c.Sized) {span : Span}
    (hspan : span.Within c.sentence.length) (items : List CoarseItem) :
    (c.addCell span items.toArray).itemsOver span = numbered c.items.size items := by
  unfold itemsOver
  rw [cell_addCell hc hspan, if_pos rfl]
  exact lookup_numbered c.items items

theorem itemsOver_addCell_of_ne {c : CoarseChart α} (hc : c.Sized) {span span' : Span}
    (hspan : span.Within c.sentence.length) (hspan' : span'.Within c.sentence.length)
    (hne : span ≠ span') (items : Array CoarseItem) :
    (c.addCell span items).itemsOver span' = c.itemsOver span' := by
  unfold itemsOver
  rw [cell_addCell hc hspan, if_neg fun h => hne (cellNumber_inj hspan hspan' h)]
  refine List.filterMap_congr fun id hid => ?_
  have hlt := hc.ids_lt span' id hid
  simp [item?, addCell, Array.getElem?_append_left hlt]

theorem joinSteps_congr {c c' : CoarseChart α} (hg : c'.grammar = c.grammar) {left right : Span}
    (hl : c'.itemsOver left = c.itemsOver left) (hr : c'.itemsOver right = c.itemsOver right) :
    c'.joinSteps left right = c.joinSteps left right := by
  simp only [joinSteps, hg, hl, hr]

def unaryStepsOver (c : CoarseChart α) (span : Span) : List (CatId × CoarseStep) :=
  (c.itemsOver span).flatMap fun (id, item) =>
    if item.level = .base then
      (c.grammar.unaryRules item.cat).filterMap fun rule =>
        (c.grammar.combineUnary? rule item.cat).map fun result => (result, .unary rule id)
    else []

theorem unaryStepsOver_eq {c : CoarseChart α} {span : Span} {first : CoarseId}
    {steps : List (CatId × CoarseStep)}
    (h : c.itemsOver span = numbered first (cellItems c.grammar first span steps)) :
    c.unaryStepsOver span = unarySteps c.grammar first (grouped span .base steps).toArray := by
  unfold unaryStepsOver unarySteps
  rw [h, numbered, cellItems, List.zipIdx_append, List.map_append, List.flatMap_append]
  have hupper (more : List (CatId × CoarseStep)) (k : Nat) :
      ((((grouped span .unary more).zipIdx k).map Prod.swap).flatMap fun (p : CoarseId × CoarseItem) =>
        if p.2.level = .base then
          (c.grammar.unaryRules p.2.cat).filterMap fun rule =>
            (c.grammar.combineUnary? rule p.2.cat).map fun result => (result, CoarseStep.unary rule p.1)
        else []) = [] := by
    rw [List.flatMap_eq_nil_iff]
    rintro ⟨id, item⟩ hmem
    obtain ⟨_, hget⟩ := mem_numbered.mp hmem
    rw [level_of_mem_grouped (List.mem_of_getElem? hget)]
    rfl
  rw [hupper, List.append_nil, List.zipIdx_eq_map_add, List.map_map, List.flatMap_map]
  rfl

/-- What every state of the filling of one chart has: it is about the same sentence, and its cells are
in their places. -/
structure Over (g : Grammar) (s : Sentence) (beta : α) (c : CoarseChart α) : Prop where
  grammar_eq : c.grammar = g
  sentence_eq : c.sentence = s
  beta_eq : c.beta = beta
  sized : c.Sized

theorem over_empty (g : Grammar) (s : Sentence) (beta : α) : Over g s beta (empty g s beta) :=
  ⟨rfl, rfl, rfl, sized_empty g s beta⟩

variable [Scalar α]

theorem fill_eq (tags : Supertags α) (maxItems : Nat) (c : CoarseChart α) (span : Span) :
    fill tags maxItems c span =
      if (cellItems c.grammar c.items.size span (c.stepsOver tags span)).length ≤
          maxItems - c.items.size then
        .ok (c.addCell span (cellItems c.grammar c.items.size span (c.stepsOver tags span)).toArray)
      else .error .abandoned := by
  unfold fill
  rw [cellOf_eq]
  split <;> rfl

theorem fill_ok {tags : Supertags α} {maxItems : Nat} {c c' : CoarseChart α} {span : Span}
    (h : fill tags maxItems c span = .ok c') :
    c' = c.addCell span (cellItems c.grammar c.items.size span (c.stepsOver tags span)).toArray := by
  rw [fill_eq] at h
  split at h
  · cases h
    rfl
  · cases h

variable {g : Grammar} {s : Sentence} {beta : α} {tags : Supertags α} {maxItems : Nat}

theorem over_fill {c c' : CoarseChart α} {span : Span} (hc : Over g s beta c)
    (hspan : span.Within s.length) (h : fill tags maxItems c span = .ok c') : Over g s beta c' := by
  obtain ⟨hg, rfl, hb, hsized⟩ := hc
  rw [fill_ok h]
  exact ⟨hg, rfl, hb, sized_addCell hsized hspan _⟩

theorem itemsOver_run {spans : List Span} : ∀ {c c' : CoarseChart α}, Over g s beta c →
    (∀ span ∈ spans, span.Within s.length) → spans.foldlM (fill tags maxItems) c = .ok c' →
    Over g s beta c' ∧ ∀ span, span.Within s.length → span ∉ spans →
      c'.itemsOver span = c.itemsOver span := by
  induction spans with
  | nil =>
    intro c c' hc _ h
    cases h
    exact ⟨hc, fun _ _ _ => rfl⟩
  | cons first spans ih =>
    intro c c' hc hin h
    rw [List.foldlM_cons] at h
    obtain ⟨mid, hmid, hrest⟩ := except_bind_eq_ok.mp h
    have hfirst : first.Within s.length := hin first (by simp)
    have hover := over_fill hc hfirst hmid
    obtain ⟨hover', hsame⟩ := ih hover (fun span hs => hin span (by simp [hs])) hrest
    refine ⟨hover', fun span hspan hnot => ?_⟩
    rw [hsame span hspan (fun hs => hnot (by simp [hs])), fill_ok hmid]
    obtain ⟨_, rfl, _, hsized⟩ := hc
    exact itemsOver_addCell_of_ne hsized hfirst hspan (fun he => hnot (by simp [he])) _

theorem stepsOver_congr {c c' : CoarseChart α} (hc : Over g s beta c) (hc' : Over g s beta c')
    {span : Span} (hspan : span.Within s.length)
    (hsame : ∀ sub, sub.Within s.length → sub.length < span.length →
      c'.itemsOver sub = c.itemsOver sub) :
    c'.stepsOver tags span = c.stepsOver tags span := by
  have hg : c'.grammar = c.grammar := hc'.grammar_eq.trans hc.grammar_eq.symm
  unfold stepsOver
  split
  · simp only [lexicalSteps, hg, hc'.beta_eq, hc.beta_eq]
  · unfold binarySteps
    obtain ⟨hlt, hle⟩ := hspan
    refine List.flatMap_congr fun i hi => joinSteps_congr hg (hsame _ ?_ ?_) (hsame _ ?_ ?_)
    all_goals
      simp only [List.mem_range, Span.length, Span.Within] at hi ⊢
      omega

theorem itemsOver_filled {c : CoarseChart α} (h : filled g s tags beta maxItems = .ok c) :
    Over g s beta c ∧ ∀ span, span.Within s.length →
      ∃ first, c.itemsOver span = numbered first (cellItems g first span (c.stepsOver tags span)) := by
  unfold filled at h
  have hin : ∀ span ∈ spansOf s.length, span.Within s.length := fun span => mem_spansOf.mp
  have hover := (itemsOver_run (over_empty g s beta) hin h).1
  refine ⟨hover, fun span hspan => ?_⟩
  obtain ⟨before, after, hsplit⟩ := List.append_of_mem (mem_spansOf.mpr hspan)
  have horder := spansOf_pairwise s.length
  rw [hsplit] at h hin horder
  -- the chart `here` meets the span, the chart `next` has its cell
  rw [List.foldlM_append] at h
  obtain ⟨here, hhere, h⟩ := except_bind_eq_ok.mp h
  rw [List.foldlM_cons] at h
  obtain ⟨next, hnext, hrest⟩ := except_bind_eq_ok.mp h
  have hoverHere := (itemsOver_run (over_empty g s beta) (fun sp hs => hin sp (by simp [hs])) hhere).1
  have hoverNext := over_fill hoverHere hspan hnext
  have hafter := (itemsOver_run hoverNext (fun sp hs => hin sp (by simp [hs])) hrest).2
  obtain ⟨_, hlater, _⟩ := List.pairwise_append.mp horder
  have hlate := (List.pairwise_cons.mp hlater).1
  have hsub : ∀ sub, sub.Within s.length → sub.length < span.length →
      c.itemsOver sub = here.itemsOver sub := by
    intro sub hwithin hshort
    have hne : span ≠ sub := by
      rintro rfl
      omega
    have hnot : sub ∉ after := fun hs => by
      have := (hlate sub hs).2
      omega
    rw [hafter sub hwithin hnot, fill_ok hnext]
    obtain ⟨_, rfl, _, hsized⟩ := hoverHere
    exact itemsOver_addCell_of_ne hsized hspan hwithin hne _
  refine ⟨here.items.size, ?_⟩
  rw [hafter span hspan fun hs => (hlate span hs).1 rfl, fill_ok hnext,
    stepsOver_congr hoverHere hover hspan hsub]
  obtain ⟨rfl, rfl, _, hsized⟩ := hoverHere
  exact itemsOver_addCell_self hsized hspan _

/-- The steps to the items of one level over a span, read off the chart. -/
def stepsAt (c : CoarseChart α) (tags : Supertags α) (span : Span) : Level → List (CatId × CoarseStep)
  | .base => c.stepsOver tags span
  | .unary => c.unaryStepsOver span

/-- The chart has in every cell, at both levels, the items that its steps make, and no others. -/
structure Saturated (c : CoarseChart α) (tags : Supertags α) : Prop where
  items_eq : ∀ span, span.Within c.sentence.length → ∃ first, c.itemsOver span =
    numbered first (grouped span .base (c.stepsAt tags span .base) ++
      grouped span .unary (c.stepsAt tags span .unary))

theorem saturated_filled {c : CoarseChart α} (h : filled g s tags beta maxItems = .ok c) :
    c.Saturated tags where
  items_eq span hspan := by
    obtain ⟨⟨rfl, rfl, _, _⟩, hcells⟩ := itemsOver_filled h
    obtain ⟨first, hfirst⟩ := hcells span hspan
    refine ⟨first, ?_⟩
    simp only [stepsAt, unaryStepsOver_eq hfirst]
    exact hfirst

namespace Saturated

variable {c : CoarseChart α} {span : Span} {id : CoarseId} {item : CoarseItem}

theorem mem_itemsOver (hc : c.Saturated tags) (hspan : span.Within c.sentence.length)
    (h : (id, item) ∈ c.itemsOver span) :
    item.cat ∈ catsOf (c.stepsAt tags span item.level) ∧
      item = itemFor span item.level (c.stepsAt tags span item.level) item.cat := by
  obtain ⟨first, hitems⟩ := hc.items_eq span hspan
  rw [hitems] at h
  obtain ⟨_, hget⟩ := mem_numbered.mp h
  rcases List.mem_append.mp (List.mem_of_getElem? hget) with hmem | hmem
  · obtain ⟨cat, hcat, rfl⟩ := List.mem_map.mp hmem
    exact ⟨hcat, rfl⟩
  · obtain ⟨cat, hcat, rfl⟩ := List.mem_map.mp hmem
    exact ⟨hcat, rfl⟩

theorem exists_item (hc : c.Saturated tags) (hspan : span.Within c.sentence.length) {level : Level}
    {cat : CatId} (h : cat ∈ catsOf (c.stepsAt tags span level)) :
    ∃ id, (id, itemFor span level (c.stepsAt tags span level) cat) ∈ c.itemsOver span := by
  obtain ⟨first, hitems⟩ := hc.items_eq span hspan
  have hmem : itemFor span level (c.stepsAt tags span level) cat ∈
      grouped span .base (c.stepsAt tags span .base) ++
        grouped span .unary (c.stepsAt tags span .unary) := by
    cases level with
    | base => exact List.mem_append_left _ (List.mem_map.mpr ⟨cat, h, rfl⟩)
    | unary => exact List.mem_append_right _ (List.mem_map.mpr ⟨cat, h, rfl⟩)
  obtain ⟨i, hi⟩ := List.mem_iff_getElem?.mp hmem
  refine ⟨first + i, ?_⟩
  rw [hitems, mem_numbered, Nat.add_sub_cancel_left]
  exact ⟨Nat.le_add_right _ _, hi⟩

theorem keys_nodup (hc : c.Saturated tags) (hspan : span.Within c.sentence.length) :
    ((c.itemsOver span).map fun entry => (entry.2.cat, entry.2.level)).Nodup := by
  obtain ⟨first, hitems⟩ := hc.items_eq span hspan
  have hkeys (level : Level) (steps : List (CatId × CoarseStep)) :
      (grouped span level steps).map (fun item => (item.cat, item.level)) =
        (catsOf steps).map fun cat => (cat, level) := by
    simp [grouped, itemFor]
  have hmap (steps : List CoarseItem) :
      (numbered first steps).map (fun entry => (entry.2.cat, entry.2.level)) =
        steps.map fun item => (item.cat, item.level) := by
    conv => rhs; rw [← map_snd_numbered first steps, List.map_map]
    rfl
  rw [hitems, hmap, List.map_append, hkeys, hkeys, List.nodup_append]
  have hinj (level : Level) : Function.Injective fun cat : CatId => (cat, level) :=
    fun _ _ h => (Prod.mk.inj h).1
  refine ⟨(catsOf_nodup _).map (hinj _), (catsOf_nodup _).map (hinj _), ?_⟩
  intro a ha b hb
  obtain ⟨_, _, rfl⟩ := List.mem_map.mp ha
  obtain ⟨_, _, rfl⟩ := List.mem_map.mp hb
  simp

theorem item_unique (hc : c.Saturated tags) (hspan : span.Within c.sentence.length)
    {id' : CoarseId} {item' : CoarseItem} (h : (id, item) ∈ c.itemsOver span)
    (h' : (id', item') ∈ c.itemsOver span) (hcat : item.cat = item'.cat)
    (hlevel : item.level = item'.level) : id = id' ∧ item = item' := by
  have heq := List.inj_on_of_nodup_map (hc.keys_nodup hspan) h h' (by simp [hcat, hlevel])
  exact Prod.mk.inj heq

end Saturated

end CoarseChart

end Categorial
