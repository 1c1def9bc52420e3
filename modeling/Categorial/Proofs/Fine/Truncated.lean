import Categorial.Proofs.Fine.Visits
set_option autoImplicit false

/-!
A fine pass that keeps `k` edges of each item, or the best one, next to one that keeps all of them. The scores
of items are those of their first edges, so nothing that the pass looks at differs: the items, the beam and
the roots are the same, and each item has the first `k` of its edges.
-/

namespace Categorial

/-- How many edges of an item are kept, unless all are. -/
def Retain.limit? : Retain → Option Nat
  | best => some 1
  | kBest k => some k
  | all => none

namespace FineChart

section

variable {α : Type} [Scalar α] {S : α → Prop}

/-- The first `k` edges of some in descending order, and a new one: what is kept of them are the first `k`
of all. -/
theorem retainEdge_take (hS : Scalar.TotalOn S) {k : Nat} {edges : List (FineEdge α)} {e : FineEdge α}
    (h : Descending FineEdge.score edges) :
    retainEdge (.kBest k) (edges.take k) e = (retainEdge .all edges e).take k := by
  obtain ⟨ahead, behind, rfl, hinsert, _, ha, hb⟩ := insertByScore_split hS e h
  simp only [retainEdge, hinsert, List.take_append]
  have hahead : ∀ y ∈ ahead.take k, Scalar.le e.score y.score = true := fun y hy =>
    ha y (List.mem_of_mem_take hy)
  have hbehind : ∀ y ∈ behind.take (k - ahead.length), Scalar.le e.score y.score = false := fun y hy =>
    hb y (List.mem_of_mem_take hy)
  rw [insertByScore_append _ _ _ _ hahead hbehind, Categorial.rank, turningPoint_append _ _ _ hahead hbehind]
  by_cases hroom : ahead.length < k
  · -- the new edge comes behind fewer than `k`
    rw [List.take_of_length_le (Nat.le_of_lt hroom), if_pos hroom, List.take_append,
      List.take_of_length_le (Nat.le_of_lt hroom)]
    obtain ⟨n, hn⟩ : ∃ n, k - ahead.length = n + 1 := ⟨k - ahead.length - 1, by omega⟩
    rw [hn, List.take_succ_cons, List.take_succ_cons, List.take_take, Nat.min_eq_left (by omega)]
  · have hfull : k - ahead.length = 0 := by omega
    rw [if_neg (by rw [List.length_take]; omega), hfull, List.take_zero, List.take_zero]

theorem kept_kBest (hS : Scalar.TotalOn S) {k : Nat} (hk : 0 < k) {es : List (FineEdge α)}
    (hes : ∀ e ∈ es, S e.score) : kept (.kBest k) es = (kept .all es).take k := by
  induction es using List.reverseRecOn with
  | nil => simp [kept]
  | append_singleton es e ih =>
    by_cases hnil : es = []
    · obtain ⟨n, rfl⟩ := Nat.exists_eq_succ_of_ne_zero (Nat.pos_iff_ne_zero.mp hk)
      simp [hnil, kept]
    · have hes' : ∀ x ∈ es, S x.score := fun x hx => hes x (by simp [hx])
      rw [kept_append_singleton _ hnil, kept_append_singleton _ hnil, ih hes',
        retainEdge_take hS (descending_kept hS hes')]

theorem kept_best (hS : Scalar.TotalOn S) {es : List (FineEdge α)} (hes : ∀ e ∈ es, S e.score) :
    kept .best es = kept (.kBest 1) es := by
  induction es using List.reverseRecOn with
  | nil => rfl
  | append_singleton es e ih =>
    by_cases hnil : es = []
    · simp [hnil, kept]
    · have hes' : ∀ x ∈ es, S x.score := fun x hx => hes x (by simp [hx])
      rw [kept_append_singleton _ hnil, kept_append_singleton _ hnil, ih hes']
      have hlength : (kept (.kBest 1) es).length ≤ 1 := by
        rw [kept_kBest hS Nat.one_pos hes']
        exact List.length_take_le _ _
      cases hkept : kept (.kBest 1) es with
      | nil => exact absurd hkept (kept_ne_nil _ hnil)
      | cons first rest =>
        obtain rfl : rest = [] := by
          rw [hkept, List.length_cons] at hlength
          exact List.length_eq_zero_iff.mp (by omega)
        have hfirst : S first.score := hes' first (mem_of_mem_kept (hkept ▸ List.mem_cons_self))
        have hlt := hS.lt_iff _ _ hfirst (hes e (by simp))
        cases hle : Scalar.le e.score first.score with
        | true =>
          have hinsert := turningPoint_append (fun x : FineEdge α => Scalar.le e.score x.score) [first] []
            (by simpa using hle) (by simp)
          rw [List.append_nil] at hinsert
          simp [retainEdge, Categorial.rank, hinsert, hlt, hle]
        | false =>
          have hinsert := insertByScore_append FineEdge.score e [] [first] (by simp) (by simpa using hle)
          have hrank := turningPoint_append (fun x : FineEdge α => Scalar.le e.score x.score) [] [first]
            (by simp) (by simpa using hle)
          rw [List.nil_append] at hinsert hrank
          simp [retainEdge, Categorial.rank, hinsert, hrank, hlt, hle]

theorem kept_limit (hS : Scalar.TotalOn S) {retain : Retain} {k : Nat} (hlimit : retain.limit? = some k)
    (hk : 0 < k) {es : List (FineEdge α)} (hes : ∀ e ∈ es, S e.score) :
    kept retain es = (kept .all es).take k := by
  cases retain with
  | best =>
    cases hlimit
    rw [kept_best hS hes, kept_kBest hS Nat.one_pos hes]
  | kBest n =>
    cases hlimit
    exact kept_kBest hS hk hes
  | all => cases hlimit

end

end FineChart

def FineItem.truncate {α : Type} (k : Nat) (x : FineItem α) : FineItem α :=
  { x with edges := x.edges.take k }

namespace FineChart

/-- The chart with the first `k` edges of every item. -/
def truncate {α : Type} (k : Nat) (f : FineChart α) : FineChart α :=
  { f with items := f.items.map (FineItem.truncate k) }

section

variable {α : Type} (k : Nat) (f : FineChart α)

@[simp] theorem item?_truncate (i : FineId) :
    (f.truncate k).item? i = (f.item? i).map (FineItem.truncate k) := by
  simp [item?, truncate]

@[simp] theorem liveOf_truncate (id : CoarseId) : (f.truncate k).liveOf id = f.liveOf id := rfl

@[simp] theorem coarse_truncate : (f.truncate k).coarse = f.coarse := rfl

theorem liveItems_truncate (id : CoarseId) :
    (f.truncate k).liveItems id = (f.liveItems id).map fun p => (p.1, p.2.truncate k) := by
  unfold liveItems
  rw [liveOf_truncate, List.map_filterMap]
  refine List.filterMap_congr fun i _ => ?_
  simp [Function.comp_def]

variable [Scalar α]

theorem proposals_truncate (m : Model α) (item : CoarseItem) :
    (f.truncate k).proposals m item = f.proposals m item := by
  unfold proposals
  refine List.flatMap_congr fun step _ => ?_
  cases step with
  | lexical rule word => rfl
  | unary rule child =>
    simp only [edgesOf, liveItems_truncate, List.filterMap_map]
    rfl
  | binary rule left right =>
    simp only [edgesOf, liveItems_truncate, List.filterMap_map, List.flatMap_map]
    rfl

theorem findRoots_truncate (m : Model α) : (f.truncate k).findRoots m = f.findRoots m := by
  unfold findRoots
  simp only [liveItems_truncate, List.filterMap_map]
  rfl

theorem threshold?_truncate (m : Model α) (first : FineId) (beam : α) :
    (f.truncate k).threshold? m first beam = f.threshold? m first beam := by
  have hmerits : ((f.truncate k).items.drop first).toList.map ((f.truncate k).meritOf m) =
      (f.items.drop first).toList.map (f.meritOf m) := by
    simp only [truncate, Array.drop_eq_extract, Array.size_map, ← Array.map_extract, Array.toList_map,
      List.map_map]
    rfl
  unfold threshold?
  rw [hmerits]

theorem prune_truncate (m : Model α) (cell : List CoarseId) (first : FineId) (beam : α) :
    (f.truncate k).prune m cell first beam = (f.prune m cell first beam).truncate k := by
  unfold prune
  rw [threshold?_truncate]
  cases f.threshold? m first beam with
  | none => rfl
  | some threshold =>
    have hfalls : (fun i : FineId => ((f.truncate k).items[i]?).any fun item =>
        Scalar.lt ((f.truncate k).meritOf m item) threshold) =
        fun i => (f.items[i]?).any fun item => Scalar.lt (f.meritOf m item) threshold := by
      funext i
      cases h : f.items[i]? with
      | none => simp [truncate, h]
      | some item =>
        simp only [truncate, Array.getElem?_map, h]
        rfl
    have hsize : (f.truncate k).items.size = f.items.size := Array.size_map
    simp only [hfalls, hsize]
    generalize (List.range' first (f.items.size - first)).filter _ = fallen
    have hitems : fallen.foldl (fun items i => items.modify i fun item => { item with pruned := true })
        (f.truncate k).items =
        (fallen.foldl (fun items i => items.modify i fun item => { item with pruned := true })
          f.items).map (FineItem.truncate k) := by
      refine Array.ext_getElem? fun i => ?_
      rw [getElem?_marked, Array.getElem?_map, getElem?_marked]
      cases h : f.items[i]? with
      | none => simp [truncate, h]
      | some item => simp [truncate, h, FineItem.truncate]
    rw [hitems]
    rfl

end

/-! On comparable scores every list of edges is in descending order. -/

section

variable {α : Type} [Scalar α] {S : α → Prop} {c : CoarseChart α} {f : FineChart α} {m : Model α}
  {retain : Retain} {k : Nat}

theorem itemOf_truncate (hS : Scalar.TotalOn S) (hlimit : retain.limit? = some k) (hk : 0 < k)
    (id : CoarseId) (cat : CatId) (span : Span) {ps : List (Site × FineEdge α)} {r : Refinement}
    (hscores : ∀ e ∈ edgesFor ps r, S e.score) :
    itemOf retain id cat span ps r = (itemOf .all id cat span ps r).truncate k := by
  have hkept : kept retain (edgesFor ps r) = (kept .all (edgesFor ps r)).take k :=
    kept_limit hS hlimit hk hscores
  rw [itemOf, hkept, List.head?_take, if_neg (Nat.pos_iff_ne_zero.mp hk)]
  rfl

omit [Scalar α] in
theorem live_truncate (hlive : ∀ id, ∀ i ∈ f.liveOf id, ∃ item, f.Has id i item) :
    ∀ id, ∀ i ∈ (f.truncate k).liveOf id, ∃ item, (f.truncate k).Has id i item := by
  intro id i hi
  obtain ⟨x, hx, hid⟩ := hlive id i hi
  exact ⟨x.truncate k, by simp [hx], hid⟩

theorem expand_truncate (hS : Scalar.TotalOn S) (hboth : ∀ x y, S x → S y → S (Scalar.both x y))
    (hm : m.ScoresIn ⟨c.grammar, c.sentence⟩ S) (hlimit : retain.limit? = some k) (hk : 0 < k)
    (h : Scored c S f) (entry : CoarseId × CoarseItem) :
    expand m retain (f.truncate k) entry = (expand m .all f entry).truncate k := by
  have hrefine : (f.truncate k).refine m retain entry.1 entry.2 =
      (f.refine m .all entry.1 entry.2).map (FineItem.truncate k) := by
    rw [refine_eq (live_truncate h.live), refine_eq h.live, proposals_truncate, List.map_map]
    exact List.map_congr_left fun r _ =>
      itemOf_truncate hS hlimit hk _ _ _ (h.of_mem_edgesFor hboth hm)
  unfold expand addItems
  rw [hrefine]
  simp [truncate]

theorem foldl_expand_truncate {entries : List (CoarseId × CoarseItem)}
    (h : ∀ v ∈ visitsIn m .all f entries, expand m retain (v.chart.truncate k) (v.id, v.item) =
      (v.next m .all).truncate k) :
    entries.foldl (expand m retain) (f.truncate k) = (entries.foldl (expand m .all) f).truncate k := by
  induction entries generalizing f with
  | nil => rfl
  | cons entry entries ih =>
    obtain ⟨hfirst, hrest⟩ := List.forall_mem_cons.mp h
    rw [List.foldl_cons, List.foldl_cons, hfirst]
    exact ih hrest

theorem foldl_fill_truncate {beam : Option α} {spans : List Span}
    (h : ∀ v ∈ visits m .all beam f spans, expand m retain (v.chart.truncate k) (v.id, v.item) =
      (v.next m .all).truncate k) :
    spans.foldl (fill m retain beam) (f.truncate k) = (spans.foldl (fill m .all beam) f).truncate k := by
  induction spans generalizing f with
  | nil => rfl
  | cons span spans ih =>
    obtain ⟨hcell, hrest⟩ := List.forall_mem_append.mp h
    have hfill : fill m retain beam (f.truncate k) span = (fill m .all beam f span).truncate k := by
      have hsize : (f.truncate k).items.size = f.items.size := Array.size_map
      unfold fill
      cases beam with
      | none => exact foldl_expand_truncate hcell
      | some beam =>
        simp only [coarse_truncate, foldl_expand_truncate hcell, hsize, prune_truncate]
    rw [List.foldl_cons, List.foldl_cons, hfill]
    exact ih hrest

/-- Two passes over the same coarse chart make the same chart, but for the edges that are kept. -/
theorem pass_truncate (hS : Scalar.TotalOn S) (hboth : ∀ x y, S x → S y → S (Scalar.both x y))
    (hm : m.ScoresIn ⟨c.grammar, c.sentence⟩ S) (hlimit : retain.limit? = some k) (hk : 0 < k)
    (beam : Option α) : pass c m retain beam = (pass c m .all beam).truncate k := by
  have hunscored : (unscored c).truncate k = unscored c := by simp [truncate, unscored]
  have hvisits := (scored_pass .all beam hboth hm).2
  have hrun := foldl_fill_truncate fun v hv =>
    expand_truncate hS hboth hm hlimit hk (hvisits v hv).1 (v.id, v.item)
  rw [hunscored] at hrun
  exact hrun

theorem build_limit (hS : Scalar.TotalOn S) (hboth : ∀ x y, S x → S y → S (Scalar.both x y))
    (hm : m.ScoresIn ⟨c.grammar, c.sentence⟩ S) (hlimit : retain.limit? = some k) (hk : 0 < k)
    (beam : Option α) : build c m retain beam = (build c m .all beam).map (truncate k) := by
  rw [build_eq, build_eq, pass_truncate hS hboth hm hlimit hk, findRoots_truncate]
  cases c.grammar.check m.grammarId with
  | error e => rfl
  | ok u => rfl

end

theorem build_truncate {c : CoarseChart EReal} {f : FineChart EReal} {m : Model EReal} {k : Nat} (hk : 0 < k)
    {beam : Option EReal} (h : build c m .all beam = .ok f) :
    build c m (.kBest k) beam = .ok (f.truncate k) := by
  rw [build_limit ExactScalar.totalOn (fun _ _ _ _ => trivial) (fun _ _ _ => trivial) rfl hk, h]
  rfl

end FineChart

end Categorial
