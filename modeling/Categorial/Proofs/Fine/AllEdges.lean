import Categorial.Proofs.Fine.Complete
set_option autoImplicit false

namespace Categorial

namespace FineChart

variable {α : Type}

/-- The steps over live items that stand for a coarse one. -/
def fineSteps (f : FineChart α) : CoarseStep → List FineStep
  | .lexical rule word => [.lexical rule word]
  | .unary rule child => (f.liveItems child).map fun p => .unary rule p.1
  | .binary rule left right =>
    (f.liveItems left).flatMap fun p => (f.liveItems right).map fun q => .binary rule p.1 q.1

variable {f : FineChart α} {m : Model α}

theorem step_of_edge? {ctx : Context} {site : Site} {e : Expansion} {step : FineStep} {score : α → α}
    {p : Site × FineEdge α} (h : edge? m ctx site e step score = some p) : p.2.step = step := by
  obtain ⟨_, _, rfl⟩ := edge?_eq_some.mp h
  rfl

theorem fineSteps_inj (hlive : ∀ id, ∀ i ∈ f.liveOf id, ∃ item, f.Has id i item) {a b : CoarseStep}
    {step : FineStep} (ha : step ∈ f.fineSteps a) (hb : step ∈ f.fineSteps b) : a = b := by
  have hsame : ∀ {id id' : CoarseId} {i : FineId} {x y : FineItem α}, (i, x) ∈ f.liveItems id →
      (i, y) ∈ f.liveItems id' → id = id' := by
    intro id id' i x y hx hy
    obtain ⟨_, hget, hid⟩ := hlive id i (mem_liveItems.mp hx).1
    obtain ⟨_, hget', hid'⟩ := hlive id' i (mem_liveItems.mp hy).1
    cases hget.symm.trans hget'
    exact hid.symm.trans hid'
  cases a with
  | lexical rule word =>
    obtain rfl := List.mem_singleton.mp ha
    cases b with
    | lexical => simpa [fineSteps] using hb
    | unary => simp [fineSteps] at hb
    | binary => simp [fineSteps] at hb
  | unary rule child =>
    obtain ⟨⟨i, x⟩, hi, rfl⟩ := List.mem_map.mp ha
    cases b with
    | lexical => simp [fineSteps] at hb
    | unary rule' child' =>
      obtain ⟨⟨j, y⟩, hj, heq⟩ := List.mem_map.mp hb
      obtain ⟨rfl, rfl⟩ := FineStep.unary.inj heq
      rw [hsame hi hj]
    | binary => simp [fineSteps] at hb
  | binary rule left right =>
    obtain ⟨⟨i, x⟩, hi, ha⟩ := List.mem_flatMap.mp ha
    obtain ⟨⟨j, y⟩, hj, rfl⟩ := List.mem_map.mp ha
    cases b with
    | lexical => simp [fineSteps] at hb
    | unary => simp [fineSteps] at hb
    | binary rule' left' right' =>
      obtain ⟨⟨i', x'⟩, hi', hb⟩ := List.mem_flatMap.mp hb
      obtain ⟨⟨j', y'⟩, hj', heq⟩ := List.mem_map.mp hb
      obtain ⟨rfl, rfl, rfl⟩ := FineStep.binary.inj heq
      rw [hsame hi hi', hsame hj hj']

theorem nodup_fineSteps {step : CoarseStep}
    (h : ∀ id ∈ step.children, ((f.liveItems id).map Prod.fst).Nodup) : (f.fineSteps step).Nodup := by
  have hinj : ∀ {id : CoarseId}, ((f.liveItems id).map Prod.fst).Nodup → ∀ {p q : FineId × FineItem α},
      p ∈ f.liveItems id → q ∈ f.liveItems id → p.1 = q.1 → p = q :=
    fun hid _ _ hp hq heq => List.inj_on_of_nodup_map hid hp hq heq
  cases step with
  | lexical => exact List.nodup_singleton _
  | unary rule child =>
    have hchild := h child (by simp [CoarseStep.children])
    exact hchild.of_map.map_on fun p hp q hq heq => hinj hchild hp hq (FineStep.unary.inj heq).2
  | binary rule left right =>
    have hleft := h left (by simp [CoarseStep.children])
    have hright := h right (by simp [CoarseStep.children])
    refine nodup_flatMap_of hleft.of_map (fun p _ => ?_) fun p hp q hq step hs hs' => ?_
    · exact hright.of_map.map_on fun q hq q' hq' heq => hinj hright hq hq' (FineStep.binary.inj heq).2.2
    · obtain ⟨_, _, rfl⟩ := List.mem_map.mp hs
      obtain ⟨_, _, heq⟩ := List.mem_map.mp hs'
      exact hinj hleft hp hq (FineStep.binary.inj heq).2.1.symm

variable [Scalar α]

theorem edgesOf_sublist (f : FineChart α) (m : Model α) (item : CoarseItem) (step : CoarseStep) :
    ((f.edgesOf m item step).map fun p => p.2.step).Sublist (f.fineSteps step) := by
  cases step with
  | lexical rule word =>
    simp only [edgesOf, fineSteps]
    cases h : edge? m f.context ⟨item.cat, item.span, m.refineLexical f.context item.cat word⟩
      (.lexical rule ⟨item.cat, item.span, m.refineLexical f.context item.cat word⟩)
      (.lexical rule word) id with
    | none => simp
    | some p => simp [step_of_edge? h]
  | unary rule child => exact map_filterMap_sublist (fun _ _ h => step_of_edge? h) _
  | binary rule left right =>
    simp only [edgesOf, fineSteps, List.map_flatMap]
    refine flatMap_sublist fun p => ?_
    exact map_filterMap_sublist (fun _ _ h => step_of_edge? h) _

variable {retain : Retain} {c : CoarseChart α} {tags : Supertags α}

namespace Finished

variable {span : Span} {id : CoarseId} {item : CoarseItem}

theorem eq_itemOf (hf : Finished c m retain f) (hspan : span.Within c.sentence.length)
    (hmem : (id, item) ∈ c.itemsOver span) {i : FineId} {x : FineItem α} (hx : f.Has id i x) :
    x = itemOf retain id item.cat item.span (f.proposals m item) x.site.refinement := by
  obtain ⟨r, _, hr⟩ := (hf.has_iff hspan hmem).mp ⟨i, hx⟩
  conv => lhs; rw [hr]
  rw [hr]
  rfl

/-- The edges of an item are those that can be made for its phrase. -/
theorem mem_edges_iff (hf : Finished c m .all f) (hspan : span.Within c.sentence.length)
    (hmem : (id, item) ∈ c.itemsOver span) {i : FineId} {x : FineItem α} (hx : f.Has id i x)
    {e : FineEdge α} : e ∈ x.edges ↔ f.Built m item x.site e := by
  have hedges : x.edges = kept .all (edgesFor (f.proposals m item) x.site.refinement) :=
    congrArg FineItem.edges (hf.eq_itemOf hspan hmem hx)
  rw [hedges, (kept_all_perm _).mem_iff, mem_edgesFor]
  obtain ⟨hcat, hsp⟩ := hf.site_eq hspan hmem hx
  constructor
  · rintro ⟨site, hp, href⟩
    have hbuilt := hf.mem_proposals_iff.mp hp
    obtain ⟨hcat', hsp'⟩ := hbuilt.site_eq
    have hsite : site = x.site := by
      cases site
      cases hs : x.site
      simp_all
    exact hsite ▸ hbuilt
  · exact fun h => ⟨x.site, hf.mem_proposals_iff.mpr h, rfl⟩

end Finished

end FineChart

end Categorial
