import Categorial.Chart.Fine
import Categorial.Proofs.Lists
set_option autoImplicit false

namespace Categorial

namespace FineChart

variable {α : Type}

def refinementsOf (ps : List (Site × FineEdge α)) : List Refinement :=
  (ps.map fun p => p.1.refinement).eraseDups

def edgesFor (ps : List (Site × FineEdge α)) (r : Refinement) : List (FineEdge α) :=
  (ps.filter fun p => p.1.refinement == r).map Prod.snd

theorem mem_edgesFor {ps : List (Site × FineEdge α)} {r : Refinement} {e : FineEdge α} :
    e ∈ edgesFor ps r ↔ ∃ site, (site, e) ∈ ps ∧ site.refinement = r := by
  simp [edgesFor]

theorem mem_refinementsOf {ps : List (Site × FineEdge α)} {r : Refinement} :
    r ∈ refinementsOf ps ↔ ∃ p ∈ ps, p.1.refinement = r := by
  simp [refinementsOf, List.mem_eraseDups]

theorem edgesFor_append_singleton (ps : List (Site × FineEdge α)) (p : Site × FineEdge α)
    (r : Refinement) :
    edgesFor (ps ++ [p]) r = edgesFor ps r ++ if p.1.refinement = r then [p.2] else [] := by
  by_cases h : p.1.refinement = r
  · simp [edgesFor, h]
  · simp [edgesFor, h]

theorem refinementsOf_append_singleton (ps : List (Site × FineEdge α)) (p : Site × FineEdge α) :
    refinementsOf (ps ++ [p]) =
      if p.1.refinement ∈ refinementsOf ps then refinementsOf ps
      else refinementsOf ps ++ [p.1.refinement] := by
  unfold refinementsOf
  rw [List.map_append]
  exact eraseDups_append_singleton _ _

theorem nodup_refinementsOf (ps : List (Site × FineEdge α)) : (refinementsOf ps).Nodup :=
  nodup_eraseDups _

theorem edge?_eq_some {m : Model α} {ctx : Context} {site : Site} {e : Expansion} {step : FineStep}
    {score : α → α} {p : Site × FineEdge α} :
    edge? m ctx site e step score = some p ↔
      ∃ x, m.score ctx e = .ok x ∧ p = (site, ⟨step, x, score x⟩) := by
  unfold edge?
  cases m.score ctx e with
  | error _ => simp
  | ok x => simp [eq_comm]

variable [Scalar α]

/-- What is kept of some edges that come one by one. -/
def kept (retain : Retain) : List (FineEdge α) → List (FineEdge α)
  | [] => []
  | e :: es => es.foldl (retainEdge retain) [e]

theorem kept_append_singleton (retain : Retain) {es : List (FineEdge α)} (hes : es ≠ [])
    (e : FineEdge α) : kept retain (es ++ [e]) = retainEdge retain (kept retain es) e := by
  cases es with
  | nil => exact absurd rfl hes
  | cons first es => simp [kept]

/-- The item of one refinement. Its score is that of its first edge. -/
def itemOf (retain : Retain) (id : CoarseId) (cat : CatId) (span : Span)
    (ps : List (Site × FineEdge α)) (r : Refinement) : FineItem α :=
  ⟨id, ⟨cat, span, r⟩, ((kept retain (edgesFor ps r)).head?).elim Scalar.bottom FineEdge.score,
    kept retain (edgesFor ps r), false⟩

theorem addEdge_of_new (retain : Retain) (id : CoarseId) (group : List (FineItem α))
    (p : Site × FineEdge α) (hnew : ∀ item ∈ group, item.site.refinement ≠ p.1.refinement) :
    addEdge retain id group p = group ++ [⟨id, p.1, p.2.score, [p.2], false⟩] := by
  induction group with
  | nil => rfl
  | cons item group ih =>
    rw [addEdge, if_neg (hnew item (by simp)), ih fun x hx => hnew x (by simp [hx]), List.cons_append]

theorem addEdge_map (retain : Retain) (id : CoarseId) (p : Site × FineEdge α)
    {F : Refinement → FineItem α} (hF : ∀ r, (F r).site.refinement = r) {rs : List Refinement}
    (hnodup : rs.Nodup) (hmem : p.1.refinement ∈ rs) :
    addEdge retain id (rs.map F) p = rs.map fun r =>
      if r = p.1.refinement then
        { F r with
          edges := retainEdge retain (F r).edges p.2
          score := ((retainEdge retain (F r).edges p.2).head?).elim (F r).score FineEdge.score }
      else F r := by
  induction rs with
  | nil => simp at hmem
  | cons r rs ih =>
    obtain ⟨hr, hnodup⟩ := List.nodup_cons.mp hnodup
    rw [List.map_cons, List.map_cons, addEdge, hF]
    by_cases heq : r = p.1.refinement
    · rw [if_pos heq, if_pos heq]
      refine congrArg _ (List.map_congr_left fun r' hr' => ?_)
      rw [if_neg]
      rintro rfl
      exact hr (heq ▸ hr')
    · rw [if_neg heq, if_neg heq]
      have hrest : p.1.refinement ∈ rs := by
        rcases List.mem_cons.mp hmem with h | h
        · exact absurd h.symm heq
        · exact h
      rw [ih hnodup hrest]

theorem retainEdge_ne_nil (retain : Retain) {es : List (FineEdge α)} (hes : es ≠ [])
    (e : FineEdge α) : retainEdge retain es e ≠ [] := by
  cases es with
  | nil => exact absurd rfl hes
  | cons first es =>
    cases retain with
    | best =>
      simp only [retainEdge]
      split <;> simp
    | kBest k =>
      simp only [retainEdge]
      split
      · rename_i h
        cases k with
        | zero => omega
        | succ k => simp [insertByScore]
      · simp
    | all => simp [retainEdge, insertByScore]

theorem kept_ne_nil (retain : Retain) {es : List (FineEdge α)} (hes : es ≠ []) :
    kept retain es ≠ [] := by
  induction es using List.reverseRecOn with
  | nil => exact absurd rfl hes
  | append_singleton es e ih =>
    by_cases h : es = []
    · simp [h, kept]
    · rw [kept_append_singleton retain h]
      exact retainEdge_ne_nil retain (ih h) e

theorem foldl_addEdge (retain : Retain) (id : CoarseId) {cat : CatId} {span : Span}
    {ps : List (Site × FineEdge α)} (hsite : ∀ p ∈ ps, p.1.cat = cat ∧ p.1.span = span) :
    ps.foldl (addEdge retain id) [] = (refinementsOf ps).map (itemOf retain id cat span ps) := by
  induction ps using List.reverseRecOn with
  | nil => rfl
  | append_singleton ps p ih =>
    rw [List.foldl_append, ih fun q hq => hsite q (by simp [hq]), refinementsOf_append_singleton]
    obtain ⟨hcat, hspan⟩ := hsite p (by simp)
    by_cases hmem : p.1.refinement ∈ refinementsOf ps
    · rw [if_pos hmem]
      refine (addEdge_map retain id p (fun _ => rfl) (nodup_refinementsOf ps) hmem).trans ?_
      refine List.map_congr_left fun r hr => ?_
      by_cases heq : r = p.1.refinement
      · obtain ⟨q, hq, hqr⟩ := mem_refinementsOf.mp hr
        have hne : edgesFor ps r ≠ [] := List.ne_nil_of_mem (mem_edgesFor.mpr ⟨q.1, hq, hqr⟩)
        have hedges : kept retain (edgesFor (ps ++ [p]) r) =
            retainEdge retain (kept retain (edgesFor ps r)) p.2 := by
          rw [edgesFor_append_singleton, if_pos heq.symm, kept_append_singleton retain hne]
        rw [if_pos heq, itemOf, itemOf, hedges]
        cases hkept : retainEdge retain (kept retain (edgesFor ps r)) p.2 with
        | nil => exact absurd hkept (retainEdge_ne_nil retain (kept_ne_nil retain hne) _)
        | cons first rest => rfl
      · rw [if_neg heq, itemOf, itemOf, edgesFor_append_singleton, if_neg fun h => heq h.symm,
          List.append_nil]
    · rw [if_neg hmem, List.foldl_cons, List.foldl_nil, addEdge_of_new, List.map_append]
      · refine congrArg₂ _ (List.map_congr_left fun r hr => ?_) ?_
        · have hne : p.1.refinement ≠ r := by
            rintro rfl
            exact hmem hr
          rw [itemOf, itemOf, edgesFor_append_singleton, if_neg hne, List.append_nil]
        · have hnil : edgesFor ps p.1.refinement = [] := by
            refine List.eq_nil_iff_forall_not_mem.mpr fun e he => hmem ?_
            obtain ⟨site, hsite, hr⟩ := mem_edgesFor.mp he
            exact mem_refinementsOf.mpr ⟨(site, e), hsite, hr⟩
          subst hcat hspan
          simp [itemOf, edgesFor_append_singleton, hnil, kept]
      · intro item hitem
        obtain ⟨r, hr, rfl⟩ := List.mem_map.mp hitem
        rintro rfl
        exact hmem hr

/-- The edges that the steps of a coarse item propose, with the phrases that they build. -/
def proposals (f : FineChart α) (m : Model α) (item : CoarseItem) : List (Site × FineEdge α) :=
  item.steps.toList.flatMap (f.edgesOf m item)

end FineChart

end Categorial
