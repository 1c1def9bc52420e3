import Categorial.Proofs.Fine.Roots
set_option autoImplicit false

/-!
A fine pass visit by visit. It comes to each coarse item once it has refined what the item's steps take, and
adds the items that the steps make; between two cells the beam marks items. What the start has and both keep
is there at every visit, and every item of the finished chart was added at one.
-/

namespace Categorial

namespace FineChart

/-- A coarse item whose turn it is, and the chart as the pass has it then. -/
structure Visit (α : Type) where
  chart : FineChart α
  id : CoarseId
  item : CoarseItem

variable {α : Type} [Scalar α]

def Visit.proposals (v : Visit α) (m : Model α) : List (Site × FineEdge α) := v.chart.proposals m v.item

def Visit.next (v : Visit α) (m : Model α) (retain : Retain) : FineChart α :=
  expand m retain v.chart (v.id, v.item)

/-- The visit adds the item under this number. A beam may mark it later. -/
def Visit.Adds (v : Visit α) (m : Model α) (retain : Retain) (i : FineId) (x : FineItem α) : Prop :=
  v.chart.items.size ≤ i ∧ (v.next m retain).item? i = some { x with pruned := false }

def visitsIn (m : Model α) (retain : Retain) (f : FineChart α) :
    List (CoarseId × CoarseItem) → List (Visit α)
  | [] => []
  | entry :: entries => ⟨f, entry.1, entry.2⟩ :: visitsIn m retain (expand m retain f entry) entries

def visits (m : Model α) (retain : Retain) (beam : Option α) (f : FineChart α) :
    List Span → List (Visit α)
  | [] => []
  | span :: spans => visitsIn m retain f (levels (f.coarse.itemsOver span)) ++
      visits m retain beam (fill m retain beam f span) spans

def visitsOf (c : CoarseChart α) (m : Model α) (retain : Retain) (beam : Option α) : List (Visit α) :=
  visits m retain beam (unscored c) (spansOf c.sentence.length)

/-- The chart of a pass, but for its roots. -/
def pass (c : CoarseChart α) (m : Model α) (retain : Retain) (beam : Option α) : FineChart α :=
  (spansOf c.sentence.length).foldl (fill m retain beam) (unscored c)

variable {c : CoarseChart α} {m : Model α} {retain : Retain} {beam : Option α} {f : FineChart α}

theorem build_eq (c : CoarseChart α) (m : Model α) (retain : Retain) (beam : Option α) :
    build c m retain beam = (c.grammar.check m.grammarId).map fun _ =>
      { pass c m retain beam with roots := (pass c m retain beam).findRoots m } := by
  unfold build
  cases c.grammar.check m.grammarId with
  | error e => rfl
  | ok u => rfl

/-! What every visit keeps. -/

section

variable {P : FineChart α → Prop}

theorem visitsIn_induction {entries : List (CoarseId × CoarseItem)}
    (hstep : ∀ f, P f → ∀ entry ∈ entries, P (expand m retain f entry)) (hf : P f) :
    P (entries.foldl (expand m retain) f) ∧
      ∀ v ∈ visitsIn m retain f entries, P v.chart ∧ (v.id, v.item) ∈ entries := by
  induction entries generalizing f with
  | nil => exact ⟨hf, by simp [visitsIn]⟩
  | cons entry entries ih =>
    obtain ⟨hend, hvisits⟩ := ih (fun f hf e he => hstep f hf e (by simp [he]))
      (hstep f hf entry (by simp))
    refine ⟨hend, fun v hv => ?_⟩
    rcases List.mem_cons.mp hv with rfl | hv
    · exact ⟨hf, by simp⟩
    · exact ⟨(hvisits v hv).1, by simp [(hvisits v hv).2]⟩

theorem visits_induction (beam : Option α) {spans : List Span} (hcoarse : ∀ f, P f → f.coarse = c)
    (hexpand : ∀ f, P f → ∀ span ∈ spans, ∀ entry ∈ c.itemsOver span, P (expand m retain f entry))
    (hprune : ∀ f, P f → ∀ cell first beam, P (f.prune m cell first beam)) (hf : P f) :
    P (spans.foldl (fill m retain beam) f) ∧
      ∀ v ∈ visits m retain beam f spans, P v.chart ∧
        ∃ span ∈ spans, (v.id, v.item) ∈ c.itemsOver span := by
  induction spans generalizing f with
  | nil => exact ⟨hf, by simp [visits]⟩
  | cons span spans ih =>
    have hentries : ∀ f, P f → ∀ entry ∈ levels (c.itemsOver span), P (expand m retain f entry) :=
      fun f hf entry hentry => hexpand f hf span (by simp) entry (mem_levels.mp hentry)
    obtain ⟨hcell, hvisits⟩ := visitsIn_induction hentries hf
    have hfill : P (fill m retain beam f span) := by
      unfold fill
      rw [hcoarse f hf]
      cases beam with
      | none => exact hcell
      | some beam => exact hprune _ hcell _ _ _
    obtain ⟨hend, hlater⟩ := ih (fun f hf s hs => hexpand f hf s (by simp [hs])) hfill
    refine ⟨hend, fun v hv => ?_⟩
    rw [visits, hcoarse f hf] at hv
    rcases List.mem_append.mp hv with hv | hv
    · obtain ⟨hchart, hmem⟩ := hvisits v hv
      exact ⟨hchart, span, by simp, mem_levels.mp hmem⟩
    · obtain ⟨hchart, s, hs, hmem⟩ := hlater v hv
      exact ⟨hchart, s, by simp [hs], hmem⟩

theorem pass_induction (hcoarse : ∀ f, P f → f.coarse = c) (hempty : P (unscored c))
    (hexpand : ∀ f, P f → ∀ span, span.Within c.sentence.length → ∀ entry ∈ c.itemsOver span,
      P (expand m retain f entry))
    (hprune : ∀ f, P f → ∀ cell first beam, P (f.prune m cell first beam)) :
    P (pass c m retain beam) ∧ ∀ v ∈ visitsOf c m retain beam, P v.chart ∧
      ∃ span, span.Within c.sentence.length ∧ (v.id, v.item) ∈ c.itemsOver span := by
  obtain ⟨hend, hvisits⟩ := visits_induction beam hcoarse
    (fun f hf span hspan => hexpand f hf span (mem_spansOf.mp hspan)) hprune hempty
  refine ⟨hend, fun v hv => ?_⟩
  obtain ⟨hchart, span, hspan, hmem⟩ := hvisits v hv
  exact ⟨hchart, span, mem_spansOf.mp hspan, hmem⟩

end

/-! Where an item comes from. -/

theorem item?_expand_of_lt {entry : CoarseId × CoarseItem} {i : FineId} (hi : i < f.items.size) :
    (expand m retain f entry).item? i = f.item? i := by
  rw [expand, item?_addItems, if_pos hi]

theorem pruned_of_mem_addEdge {id : CoarseId} {found : Site × FineEdge α} {group : List (FineItem α)}
    (h : ∀ x ∈ group, x.pruned = false) : ∀ x ∈ addEdge retain id group found, x.pruned = false := by
  induction group with
  | nil => simp [addEdge]
  | cons item group ih =>
    obtain ⟨hitem, hgroup⟩ := List.forall_mem_cons.mp h
    unfold addEdge
    split
    · exact List.forall_mem_cons.mpr ⟨hitem, hgroup⟩
    · exact List.forall_mem_cons.mpr ⟨hitem, ih hgroup⟩

theorem pruned_of_mem_refine {id : CoarseId} {item : CoarseItem} {x : FineItem α}
    (hx : x ∈ f.refine m retain id item) : x.pruned = false := by
  have hfold : ∀ (ps : List (Site × FineEdge α)) (group : List (FineItem α)),
      (∀ x ∈ group, x.pruned = false) →
        ∀ x ∈ ps.foldl (addEdge retain id) group, x.pruned = false := by
    intro ps
    induction ps with
    | nil => exact fun _ h => h
    | cons p ps ih => exact fun group h => ih _ (pruned_of_mem_addEdge h)
  exact hfold _ [] (by simp) x hx

theorem old_or_added {entry : CoarseId × CoarseItem} {i : FineId} {x : FineItem α}
    (hx : (expand m retain f entry).item? i = some x) :
    f.item? i = some x ∨ Visit.Adds ⟨f, entry.1, entry.2⟩ m retain i x := by
  by_cases hi : i < f.items.size
  · exact .inl (item?_expand_of_lt hi ▸ hx)
  · refine .inr ⟨Nat.le_of_not_lt hi, ?_⟩
    have hnew : x ∈ f.refine m retain entry.1 entry.2 := by
      rw [expand, item?_addItems, if_neg hi] at hx
      exact List.mem_of_getElem? hx
    have hmark := pruned_of_mem_refine hnew
    cases x
    cases hmark
    exact hx

theorem visitsIn_origin {entries : List (CoarseId × CoarseItem)} {i : FineId} {x : FineItem α}
    (hx : (entries.foldl (expand m retain) f).item? i = some x) :
    f.item? i = some x ∨ ∃ v ∈ visitsIn m retain f entries, v.Adds m retain i x := by
  induction entries generalizing f with
  | nil => exact .inl hx
  | cons entry entries ih =>
    rcases ih hx with hold | ⟨v, hv, hadds⟩
    · exact (old_or_added hold).imp_right fun hadds => ⟨_, List.mem_cons_self, hadds⟩
    · exact .inr ⟨v, List.mem_cons_of_mem _ hv, hadds⟩

theorem visits_origin {spans : List Span} {i : FineId} {x : FineItem α}
    (hx : (spans.foldl (fill m retain beam) f).item? i = some x) :
    (∃ mark, f.item? i = some { x with pruned := mark }) ∨
      ∃ v ∈ visits m retain beam f spans, v.Adds m retain i x := by
  induction spans generalizing f with
  | nil => exact .inl ⟨x.pruned, hx⟩
  | cons span spans ih =>
    rcases ih hx with ⟨mark, hfill⟩ | ⟨v, hv, hadds⟩
    · -- the beam of this cell may have marked the item
      obtain ⟨mark', hcell⟩ : ∃ mark', ((levels (f.coarse.itemsOver span)).foldl (expand m retain) f).item? i =
          some { x with pruned := mark' } := by
        cases beam with
        | none => exact ⟨mark, hfill⟩
        | some beam =>
          obtain ⟨_, ⟨marks, hitem⟩, _⟩ := prune_spec ((levels (f.coarse.itemsOver span)).foldl
            (expand m retain) f) m ((levels (f.coarse.itemsOver span)).map Prod.fst) f.items.size beam
          have hpruned := (hitem i).symm.trans hfill
          obtain ⟨y, hy, heq⟩ := Option.map_eq_some_iff.mp hpruned
          obtain ⟨coarse, site, score, edges, _⟩ := x
          obtain ⟨_, _, _, _, old⟩ := y
          cases heq
          exact ⟨old, hy⟩
      rcases visitsIn_origin hcell with hold | ⟨v, hv, hadds⟩
      · exact .inl ⟨mark', hold⟩
      · exact .inr ⟨v, List.mem_append_left _ hv, hadds⟩
    · exact .inr ⟨v, List.mem_append_right _ hv, hadds⟩

theorem pass_origin {i : FineId} {x : FineItem α} (hx : (pass c m retain beam).item? i = some x) :
    ∃ v ∈ visitsOf c m retain beam, v.Adds m retain i x := by
  rcases visits_origin hx with ⟨mark, hold⟩ | hadded
  · simp [item?, unscored] at hold
  · exact hadded

theorem Visit.Adds.eq_itemOf {v : Visit α} {i : FineId} {x : FineItem α} (h : v.Adds m retain i x)
    (hlive : ∀ id, ∀ i ∈ v.chart.liveOf id, ∃ item, v.chart.Has id i item) :
    x.site.refinement ∈ refinementsOf (v.proposals m) ∧ x = { itemOf retain v.id v.item.cat v.item.span
      (v.proposals m) x.site.refinement with pruned := x.pruned } := by
  obtain ⟨hle, hget⟩ := h
  rw [Visit.next, item?_expand hlive, if_neg (Nat.not_lt.mpr hle)] at hget
  obtain ⟨r, hr, heq⟩ := Option.map_eq_some_iff.mp hget
  obtain ⟨coarse, site, score, edges, mark⟩ := x
  cases heq
  exact ⟨List.mem_of_getElem? hr, rfl⟩

end FineChart

/-- The scores of the steps of one sentence, as far as they exist, are among these. -/
def Model.ScoresIn {α : Type} (m : Model α) (ctx : Context) (S : α → Prop) : Prop :=
  ∀ e x, m.score ctx e = .ok x → S x

namespace FineChart

variable {α : Type} [Scalar α] {c : CoarseChart α} {m : Model α} {retain : Retain} {beam : Option α}
  {f : FineChart α} {S : α → Prop}

theorem Built.score_mem (hboth : ∀ x y, S x → S y → S (Scalar.both x y)) (hm : m.ScoresIn f.context S)
    {item : CoarseItem} {site : Site} {e : FineEdge α} (h : f.Built m item site e)
    (hchildren : ∀ child ∈ e.step.children, ∀ x, f.item? child = some x → S x.score) : S e.score := by
  cases h with
  | lexical _ _ hx => exact hm _ _ hx
  | unary _ hchild _ hx =>
    exact hboth _ _ (hm _ _ hx) (hchildren _ (by simp [FineStep.children]) _ hchild.1)
  | binary _ hl hr _ hx =>
    refine hboth _ _ (hm _ _ hx) (hboth _ _ ?_ ?_)
    · exact hchildren _ (by simp [FineStep.children]) _ hl.1
    · exact hchildren _ (by simp [FineStep.children]) _ hr.1

/-- A chart on its way. Its items are phrases of their coarse items and score some of these, and what is live
is there. -/
structure Scored (c : CoarseChart α) (S : α → Prop) (f : FineChart α) : Prop where
  coarse_eq : f.coarse = c
  live : ∀ id, ∀ i ∈ f.liveOf id, ∃ item, f.Has id i item
  site : ∀ i x, f.item? i = some x → ∃ source, c.item? x.coarse = some source ∧
    x.site.cat = source.cat ∧ x.site.span = source.span
  score : ∀ i x, f.item? i = some x → S x.score

omit [Scalar α] in
theorem scored_unscored (c : CoarseChart α) (S : α → Prop) : Scored c S (unscored c) where
  coarse_eq := rfl
  live id i h := by simp [liveOf, unscored] at h
  site i x h := by simp [item?, unscored] at h
  score i x h := by simp [item?, unscored] at h

omit [Scalar α] in
theorem Scored.context_eq (h : Scored c S f) : f.context = ⟨c.grammar, c.sentence⟩ := by
  rw [context, h.coarse_eq]

theorem Scored.of_mem_proposals (h : Scored c S f) (hboth : ∀ x y, S x → S y → S (Scalar.both x y))
    (hm : m.ScoresIn ⟨c.grammar, c.sentence⟩ S) {item : CoarseItem} {p : Site × FineEdge α}
    (hp : p ∈ f.proposals m item) : S p.2.score := by
  have hctx : m.ScoresIn f.context S := h.context_eq ▸ hm
  exact (built_of_mem_proposals h.live hp).score_mem hboth hctx fun child _ x hx => h.score child x hx

theorem Scored.of_mem_edgesFor (h : Scored c S f) (hboth : ∀ x y, S x → S y → S (Scalar.both x y))
    (hm : m.ScoresIn ⟨c.grammar, c.sentence⟩ S) {item : CoarseItem} {r : Refinement} :
    ∀ e ∈ edgesFor (f.proposals m item) r, S e.score := by
  intro e he
  obtain ⟨_, hp, _⟩ := mem_edgesFor.mp he
  exact h.of_mem_proposals hboth hm hp

theorem Scored.expand (h : Scored c S f) (hboth : ∀ x y, S x → S y → S (Scalar.both x y))
    (hm : m.ScoresIn ⟨c.grammar, c.sentence⟩ S) {entry : CoarseId × CoarseItem}
    (hentry : c.item? entry.1 = some entry.2) : Scored c S (expand m retain f entry) where
  coarse_eq := h.coarse_eq
  live := live_expand h.live entry.1 entry.2
  site i x hx := by
    rcases expand_cases h.live hx with hold | ⟨_, r, _, rfl⟩
    · exact h.site i x hold
    · exact ⟨entry.2, hentry, rfl, rfl⟩
  score i x hx := by
    rcases expand_cases h.live hx with hold | ⟨_, r, hr, rfl⟩
    · exact h.score i x hold
    · -- the item scores what its first edge does
      have hr := List.mem_of_getElem? hr
      obtain ⟨p, hp, hpr⟩ := mem_refinementsOf.mp hr
      have hne : edgesFor (f.proposals m entry.2) r ≠ [] :=
        List.ne_nil_of_mem (mem_edgesFor.mpr ⟨p.1, hp, hpr⟩)
      cases hkept : kept retain (edgesFor (f.proposals m entry.2) r) with
      | nil => exact absurd hkept (kept_ne_nil retain hne)
      | cons e rest =>
        have he : e ∈ edgesFor (f.proposals m entry.2) r := mem_of_mem_kept (hkept ▸ List.mem_cons_self)
        simpa [itemOf, hkept] using h.of_mem_edgesFor hboth hm e he

theorem Scored.prune (h : Scored c S f) (cell : List CoarseId) (first : FineId) (beam : α) :
    Scored c S (f.prune m cell first beam) := by
  obtain ⟨hcoarse, ⟨mark, hitem⟩, hlive⟩ := prune_spec f m cell first beam
  have hold : ∀ i x, (f.prune m cell first beam).item? i = some x →
      ∃ y, f.item? i = some y ∧ x = { y with pruned := mark i || y.pruned } := by
    intro i x hx
    rw [hitem] at hx
    obtain ⟨y, hy, rfl⟩ := Option.map_eq_some_iff.mp hx
    exact ⟨y, hy, rfl⟩
  refine ⟨hcoarse.trans h.coarse_eq, fun id i hi => ?_, fun i x hx => ?_, fun i x hx => ?_⟩
  · obtain ⟨x, hx, hid⟩ := h.live id i (hlive id i hi)
    exact ⟨{ x with pruned := mark i || x.pruned }, by rw [hitem, hx]; rfl, hid⟩
  · obtain ⟨y, hy, rfl⟩ := hold i x hx
    exact h.site i y hy
  · obtain ⟨y, hy, rfl⟩ := hold i x hx
    exact h.score i y hy

/-- If the steps of the sentence score some of these and sums stay among them, then so do all items, at
every visit and at the end. -/
theorem scored_pass (retain : Retain) (beam : Option α)
    (hboth : ∀ x y, S x → S y → S (Scalar.both x y))
    (hm : m.ScoresIn ⟨c.grammar, c.sentence⟩ S) : Scored c S (pass c m retain beam) ∧
      ∀ v ∈ visitsOf c m retain beam, Scored c S v.chart ∧
        ∃ span, span.Within c.sentence.length ∧ (v.id, v.item) ∈ c.itemsOver span :=
  pass_induction (fun _ h => h.coarse_eq) (scored_unscored c S)
    (fun _ h _ _ _ hentry => h.expand hboth hm (CoarseChart.item?_of_mem hentry)) fun _ h => h.prune

end FineChart

end Categorial
