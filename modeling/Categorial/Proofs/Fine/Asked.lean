import Categorial.Proofs.Checked
import Categorial.Proofs.Fine.Complete
import Categorial.Proofs.Fine.Visits
set_option autoImplicit false

namespace Categorial

namespace FineChart

/-- One scoring call: the expansion, the step that it is for, and what the score of the edge will be. -/
structure Request (α : Type) where
  expansion : Expansion
  step : FineStep
  whole : α → α

variable {α : Type} [Scalar α]

def requests (f : FineChart α) (m : Model α) (item : CoarseItem) : CoarseStep → List (Request α)
  | .lexical rule word =>
    let site : Site := ⟨item.cat, item.span, m.refineLexical f.context item.cat word⟩
    [⟨.lexical rule site, .lexical rule word, id⟩]
  | .unary rule child =>
    (f.liveItems child).map fun (c, childItem) =>
      let site : Site := ⟨item.cat, item.span, m.refineUnary f.context rule childItem.site⟩
      ⟨.unary rule site childItem.site, .unary rule c, fun x => Scalar.both x childItem.score⟩
  | .binary rule left right =>
    (f.liveItems left).flatMap fun (l, leftItem) =>
      (f.liveItems right).map fun (r, rightItem) =>
        let site : Site :=
          ⟨item.cat, item.span, m.refineBinary f.context rule leftItem.site rightItem.site⟩
        ⟨.binary rule site leftItem.site rightItem.site, .binary rule l r,
          fun x => Scalar.both x (Scalar.both leftItem.score rightItem.score)⟩

theorem edgesOf_eq (f : FineChart α) (m : Model α) (item : CoarseItem) (step : CoarseStep) :
    f.edgesOf m item step = (f.requests m item step).filterMap fun q =>
      edge? m f.context q.expansion.site q.expansion q.step q.whole := by
  cases step with
  | lexical rule word =>
    simp only [edgesOf, requests, List.filterMap_cons, List.filterMap_nil, Expansion.site]
    cases edge? m f.context ⟨item.cat, item.span, m.refineLexical f.context item.cat word⟩
      (.lexical rule ⟨item.cat, item.span, m.refineLexical f.context item.cat word⟩)
      (.lexical rule word) (id : α → α) with
    | none => rfl
    | some edge => rfl
  | unary rule child =>
    simp only [edgesOf, requests, List.filterMap_map]
    rfl
  | binary rule left right =>
    simp only [edgesOf, requests, List.filterMap_flatMap, List.filterMap_map]
    rfl

theorem exists_mem_requests (f : FineChart α) (m : Model α) (item : CoarseItem) {step : CoarseStep}
    (h : ∀ child ∈ step.children, ∃ live, live ∈ f.liveItems child) : ∃ q, q ∈ f.requests m item step := by
  cases step with
  | lexical rule word => exact ⟨_, List.mem_singleton.mpr rfl⟩
  | unary rule child =>
    obtain ⟨live, hlive⟩ := h child (by simp [CoarseStep.children])
    exact ⟨_, List.mem_map_of_mem hlive⟩
  | binary rule left right =>
    obtain ⟨l, hl⟩ := h left (by simp [CoarseStep.children])
    obtain ⟨r, hr⟩ := h right (by simp [CoarseStep.children])
    exact ⟨_, List.mem_flatMap.mpr ⟨l, hl, List.mem_map_of_mem hr⟩⟩

theorem mem_proposals_of_request {f : FineChart α} {m : Model α} {item : CoarseItem} {step : CoarseStep}
    (hstep : step ∈ item.steps) {q : Request α} (hq : q ∈ f.requests m item step) {x : α}
    (hx : m.score f.context q.expansion = .ok x) :
    (q.expansion.site, ⟨q.step, x, q.whole x⟩) ∈ f.proposals m item := by
  refine List.mem_flatMap.mpr ⟨step, Array.mem_toList_iff.mpr hstep, ?_⟩
  rw [edgesOf_eq]
  exact List.mem_filterMap.mpr ⟨q, hq, edge?_eq_some.mpr ⟨x, hx, rfl⟩⟩

/-- The live items that may be roots, with the rules by which they may. -/
def rootCandidates (f : FineChart α) : List (RuleId × FineId × FineItem α) :=
  (f.coarse.itemsOver f.coarse.wholeSpan).flatMap fun (id, item) =>
    match f.coarse.grammar.topRule? item.cat with
    | some rule => (f.liveItems id).map fun live => (rule, live)
    | none => []

def Visit.asked (v : Visit α) (m : Model α) : List Expansion :=
  v.item.steps.toList.flatMap fun step => (v.chart.requests m v.item step).map Request.expansion

def asked (c : CoarseChart α) (m : Model α) (retain : Retain) (beam : Option α) : List Expansion :=
  (visitsOf c m retain beam).flatMap (fun v => v.asked m) ++
    (pass c m retain beam).rootCandidates.map fun (rule, _, x) => .top rule x.site

variable {c : CoarseChart α} {m : Model α} {retain : Retain} {beam : Option α} {f : FineChart α}
  {S : α → Prop} {tags : Supertags α}

omit [Scalar α] in
theorem Scored.of_mem_liveItems (h : Scored c S f) {id : CoarseId} {i : FineId} {x : FineItem α}
    (hx : (i, x) ∈ f.liveItems id) {span : Span} {item : CoarseItem} (hmem : (id, item) ∈ c.itemsOver span) :
    x.site.cat = item.cat ∧ x.site.span = item.span := by
  obtain ⟨hi, hget⟩ := mem_liveItems.mp hx
  obtain ⟨y, hy, hid⟩ := h.live id i hi
  cases hget.symm.trans hy
  obtain ⟨source, hsource, hsite⟩ := h.site i x hy
  rw [hid, CoarseChart.item?_of_mem hmem] at hsource
  cases hsource
  exact hsite

section

variable (hc : c.Saturated tags) (hg : c.grammar.Indexed)
  (hterminal : ∀ r ∈ c.grammar.rules, r.ruleType = .lexical → r.production = .terminal)

include hc hg hterminal

theorem check_of_mem_requests (h : Scored c S f) {span : Span} {id : CoarseId} {item : CoarseItem}
    (hspan : span.Within c.sentence.length) (hmem : (id, item) ∈ c.itemsOver span) {step : CoarseStep}
    (hstep : step ∈ item.steps) {q : Request α} (hq : q ∈ f.requests m item step) :
    ∃ r, q.expansion.check ⟨c.grammar, c.sentence⟩ = .ok r := by
  have hitem := hc.span_eq hspan hmem
  have hlast := (hc.mem_steps hg hspan hmem).mp hstep
  obtain ⟨cat, sp, level, steps⟩ := item
  obtain rfl : sp = span := hitem
  simp only at hlast
  cases hlast with
  | @lexical i tag rule _ hrule =>
    obtain ⟨r, hr, htype, hresult⟩ := hg.rule_of_lexicalRule? hrule
    have hproduction := hterminal r (Array.mem_of_getElem? hr) htype
    obtain rfl := List.mem_singleton.mp hq
    exact ⟨r, Expansion.check_of_fits hr
      (by simp [Expansion.fits, hproduction, hresult, Span.word, Span.length])⟩
  | @unary rule _ id child _ hchild _ hrule =>
    obtain ⟨r, hr, _, hproduction, hresult⟩ := hrule
    obtain ⟨⟨i, x⟩, hx, rfl⟩ := List.mem_map.mp hq
    obtain ⟨hcat, hsite⟩ := h.of_mem_liveItems hx hchild
    rw [hc.span_eq hspan hchild] at hsite
    exact ⟨r, Expansion.check_of_fits hr (by simp [Expansion.fits, hproduction, hresult, hcat, hsite])⟩
  | @binary rule start mid stop l r left right _ hlt hlt' hleft hright hrule =>
    obtain ⟨production, hr, hproduction, hresult⟩ := hrule
    obtain ⟨⟨i, x⟩, hx, hq⟩ := List.mem_flatMap.mp hq
    obtain ⟨⟨j, y⟩, hy, rfl⟩ := List.mem_map.mp hq
    obtain ⟨hcatl, hspanl⟩ := h.of_mem_liveItems hx hleft
    obtain ⟨hcatr, hspanr⟩ := h.of_mem_liveItems hy hright
    have hstop : stop ≤ c.sentence.length := hspan.2
    rw [hc.span_eq ⟨hlt, Nat.le_trans (Nat.le_of_lt hlt') hstop⟩ hleft] at hspanl
    rw [hc.span_eq ⟨hlt', hstop⟩ hright] at hspanr
    exact ⟨production, Expansion.check_of_fits hr
      (by simp [Expansion.fits, hproduction, hresult, hcatl, hcatr, hspanl, hspanr])⟩

omit [Scalar α] hterminal hc in
theorem check_of_mem_rootCandidates (h : Scored c S f) {rule : RuleId} {i : FineId} {x : FineItem α}
    (hx : (rule, i, x) ∈ f.rootCandidates) :
    ∃ r, (Expansion.top rule x.site).check ⟨c.grammar, c.sentence⟩ = .ok r := by
  obtain ⟨⟨id, item⟩, hmem, hx⟩ := List.mem_flatMap.mp hx
  rw [h.coarse_eq] at hmem hx
  simp only at hx
  split at hx
  · rename_i top htop
    obtain ⟨live, hlive, heq⟩ := List.mem_map.mp hx
    cases heq
    obtain ⟨r, hr, _, hproduction⟩ := hg.rule_of_topRule? htop
    obtain ⟨hcat, _⟩ := h.of_mem_liveItems hlive hmem
    exact ⟨r, Expansion.check_of_fits hr (by simp [Expansion.fits, hproduction, hcat])⟩
  · simp at hx

theorem check_of_mem_asked {e : Expansion} (he : e ∈ asked c m retain beam) :
    ∃ r, e.check ⟨c.grammar, c.sentence⟩ = .ok r := by
  obtain ⟨hend, hvisits⟩ := scored_pass (c := c) (m := m) (S := fun _ => True) retain beam
    (fun _ _ _ _ => trivial) fun _ _ _ => trivial
  rcases List.mem_append.mp he with he | he
  · obtain ⟨v, hv, he⟩ := List.mem_flatMap.mp he
    obtain ⟨step, hstep, he⟩ := List.mem_flatMap.mp he
    obtain ⟨q, hq, rfl⟩ := List.mem_map.mp he
    obtain ⟨hscored, span, hspan, hmem⟩ := hvisits v hv
    exact check_of_mem_requests hc hg hterminal hscored hspan hmem (Array.mem_toList_iff.mp hstep) hq
  · obtain ⟨⟨rule, i, x⟩, hx, rfl⟩ := List.mem_map.mp he
    exact check_of_mem_rootCandidates hg hend hx

end

end FineChart

end Categorial
