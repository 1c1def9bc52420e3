import Categorial.Proofs.Fine.AllEdges
import Categorial.Proofs.Fine.Viterbi
import Categorial.Proofs.KBest.Ranked
set_option autoImplicit false

namespace Categorial

namespace Ranking

variable {β : Type}

def ofList : List β → Ranking β
  | [] => nil
  | x :: xs => cons x (Thunk.mk fun _ => ofList xs)

@[simp] theorem toList_ofList (xs : List β) : (ofList xs).toList = xs := by
  induction xs with
  | nil => simp [ofList, toList]
  | cons x xs ih =>
    rw [ofList, toList]
    exact congrArg _ ih

theorem toList_inj : ∀ {r r' : Ranking β}, r.toList = r'.toList → r = r'
  | nil, nil, _ => rfl
  | nil, cons _ _, h => by simp [toList] at h
  | cons _ _, nil, h => by simp [toList] at h
  | cons x rest, cons y rest', h => by
    rw [toList, toList, List.cons.injEq] at h
    have hrest : rest = rest' := Thunk.ext (toList_inj h.2)
    rw [h.1, hrest]

end Ranking

section

variable {α β : Type} {lists : β → List (Parse α)}

theorem PickedAt.forall₂ : ∀ {js : List β} {rs : List Nat} {ps : List (Parse α)},
    PickedAt (js.map fun j => Ranking.ofList (lists j)) rs ps →
    List.Forall₂ (fun j p => p ∈ lists j) js ps := by
  intro js
  induction js with
  | nil =>
    rintro _ _ ⟨⟩
    exact .nil
  | cons j js ih =>
    rintro _ _ (_ | ⟨hp, hps⟩)
    rw [Ranking.toList_ofList] at hp
    exact .cons (List.mem_of_getElem? hp) (ih hps)

theorem exists_picks {js : List β} {ps : List (Parse α)}
    (h : List.Forall₂ (fun j p => p ∈ lists j) js ps) :
    ∃ rs, PickedAt (js.map fun j => Ranking.ofList (lists j)) rs ps := by
  induction h with
  | nil => exact ⟨[], .nil⟩
  | cons hp _ ih =>
    obtain ⟨r, hr⟩ := List.mem_iff_getElem?.mp hp
    obtain ⟨rs, hrs⟩ := ih
    exact ⟨r :: rs, .cons (by rwa [Ranking.toList_ofList]) hrs⟩

end

namespace Candidate

variable {edges : List (RankedEdge EReal)} {all : List (Candidate EReal)}

theorem mem_parses (hall : ∀ c, c ∈ all ↔ ∃ e, c.Valid edges e) {p : Parse EReal} :
    p ∈ all.map Candidate.parse ↔ ∃ e ∈ edges, ∃ rs picked, PickedAt e.children rs picked ∧ p.score ≠ ⊥ ∧
      p = ⟨e.node (picked.map Parse.tree), e.localScore + (picked.map Parse.score).sum⟩ := by
  rw [List.mem_map]
  constructor
  · rintro ⟨c, hc, rfl⟩
    obtain ⟨e, hv⟩ := (hall c).mp hc
    obtain ⟨hedge, _, picked, hpicked, hne, hparse⟩ := valid_iff.mp hv
    exact ⟨e, List.mem_of_getElem? hedge, c.ranks, picked, hpicked, hne, hparse⟩
  · rintro ⟨e, he, rs, picked, hpicked, hne, hparse⟩
    obtain ⟨i, hi⟩ := List.mem_iff_getElem?.mp he
    refine ⟨⟨p, i, rs, placed e.children rs⟩, (hall _).mpr ⟨e, ?_⟩, rfl⟩
    exact valid_iff.mpr ⟨hi, rfl, picked, hpicked, hne, hparse⟩

theorem descending_parses (hsorted : all.Pairwise fun a b => before a b = true) :
    Descending Parse.score (all.map Candidate.parse) := by
  refine List.pairwise_map.mpr (hsorted.imp fun {a b} h => ?_)
  rw [before_iff, cmp, Ordering.then_eq_lt] at h
  rw [ExactScalar.le_iff]
  rcases h with hlt | ⟨heq, _⟩
  · exact (compare_lt_iff_lt.mp hlt).le
  · exact (compare_eq_iff_eq.mp heq).le

theorem nodup_parses (hsorted : all.Pairwise fun a b => before a b = true)
    (hall : ∀ c, c ∈ all ↔ ∃ e, c.Valid edges e) (hdistinct : Distinct edges) :
    ((all.map Candidate.parse).map Parse.tree).Nodup := by
  rw [List.map_map]
  refine (nodup_of_sorted hsorted).map_on fun c hc d hd h => ?_
  obtain ⟨e, hv⟩ := (hall c).mp hc
  obtain ⟨e', hv'⟩ := (hall d).mp hd
  obtain ⟨hedge, _, ps, hpicks, _, hparse⟩ := valid_iff.mp hv
  obtain ⟨hedge', _, ps', hpicks', _, hparse'⟩ := valid_iff.mp hv'
  simp only [Function.comp_apply, hparse, hparse'] at h
  obtain ⟨hi, hrs⟩ := hdistinct hedge hedge' hpicks hpicks' h
  exact hv.eq_of_key hv' (by rw [key, key, hi, hrs])

end Candidate

namespace FineChart

def fullEdges {α : Type} (lists : FineId → List (Parse α)) (x : FineItem α) : List (RankedEdge α) :=
  x.edges.map fun e => ⟨e.localScore, e.score, e.step.children.map fun j => Ranking.ofList (lists j),
    fun trees => e.step.node x.site trees⟩

theorem total_eq (x : EReal) (ys : List EReal) : FineStep.total x ys = x + ys.sum := by
  have hfold : ∀ (ys : List EReal) (y : EReal), ys.foldl Scalar.both y = y + ys.sum := by
    intro ys
    induction ys with
    | nil => simp
    | cons z ys ih =>
      intro y
      rw [List.foldl_cons, ih, ExactScalar.both_eq, List.sum_cons, add_assoc]
  cases ys with
  | nil => simp [FineStep.total]
  | cons y ys => rw [FineStep.total, hfold, ExactScalar.both_eq, List.sum_cons]

/-- The first entries of some rankings together; one that is empty makes it impossible. -/
theorem elim_mapM_head? {rs : List (Ranking (Parse EReal))} {ys : List EReal}
    (h : List.Forall₂ (fun r y => y = r.head?.elim ⊥ Parse.score) rs ys) (x : EReal) :
    (rs.mapM Ranking.head?).elim ⊥ (fun picked => x + (picked.map Parse.score).sum) = x + ys.sum := by
  induction h generalizing x with
  | nil => simp
  | @cons r y rs ys hy _ ih =>
    have ih := ih 0
    rw [List.mapM_cons, List.sum_cons]
    cases hhead : r.head? with
    | none => simp [hy, hhead]
    | some p =>
      rw [hhead, Option.elim_some] at hy
      cases hrest : rs.mapM Ranking.head? with
      | none =>
        rw [hrest, Option.elim_none, zero_add] at ih
        simp [← ih]
      | some picked =>
        rw [hrest, Option.elim_some, zero_add, zero_add] at ih
        simp [← ih, hy]

/-- The derivations under an item that are not impossible, all of them, in order. -/
structure Listing (f : FineChart EReal) (m : Model EReal) (i : FineId) (all : List (Parse EReal)) :
    Prop where
  descending : Descending Parse.score all
  nodup : (all.map Parse.tree).Nodup
  mem_iff : ∀ p, p ∈ all ↔ f.Under m i p.tree p.score ∧ p.score ≠ ⊥

theorem under_of_picks {f : FineChart EReal} {m : Model EReal} {lists : FineId → List (Parse EReal)}
    {e : FineEdge EReal}
    (hlists : ∀ child ∈ e.step.children, Listing f m child (lists child)) {rs : List Nat}
    {ps : List (Parse EReal)}
    (h : PickedAt (e.step.children.map fun j => Ranking.ofList (lists j)) rs ps) :
    List.Forall₂ (fun child p => f.Under m child p.tree p.score) e.step.children ps :=
  forall₂_imp_of_mem h.forall₂ fun child hchild p hp => (((hlists child hchild).mem_iff p).mp hp).1

section

variable {c : CoarseChart EReal} {m : Model EReal} {f : FineChart EReal} {tags : Supertags EReal}
  (hf : Finished c m .all f) (hc : c.Saturated tags) (hg : c.grammar.Indexed)

include hf hc hg

theorem Listing.score_eq {i : FineId} {all : List (Parse EReal)} (h : Listing f m i all)
    {x : FineItem EReal} (hx : f.item? i = some x) : x.score = (all.head?).elim ⊥ Parse.score := by
  obtain ⟨t, _, hbest⟩ := exists_bestTree hf.sound hc hg i hx
  -- no entry scores more than the item, and the item's best tree is an entry if it is possible
  have hle : ∀ p ∈ all, p.score ≤ x.score := by
    intro p hp
    obtain ⟨x', hx', hpacks, hinside⟩ := ((h.mem_iff p).mp hp).1
    cases hx.symm.trans hx'
    obtain ⟨span, _, _, hspan, hmem, _⟩ := hf.sound.exists_source hx
    rw [hf.sound.coarse_eq] at hpacks
    obtain ⟨j, y, hy, hsite, hle⟩ :=
      hf.exists_item_of_packs hc hg (by decide) hpacks hspan hmem hinside
    obtain rfl := hf.sound.once i j x y hx hy.1 hy.2.symm (congrArg Site.refinement hsite.symm)
    cases hx.symm.trans hy.1
    exact hle
  cases hall : all with
  | nil =>
    by_contra hne
    have hmem := (h.mem_iff ⟨t, x.score⟩).mpr ⟨hbest, hne⟩
    rw [hall] at hmem
    cases hmem
  | cons p rest =>
    have hp : p ∈ all := by simp [hall]
    have hbottom : x.score ≠ ⊥ := fun hx =>
      ((h.mem_iff p).mp hp).2 (le_bot_iff.mp (hx ▸ hle p hp))
    have hmem := (h.mem_iff ⟨t, x.score⟩).mpr ⟨hbest, hbottom⟩
    have hfirst := h.descending.le_head ExactScalar.totalOn (fun _ _ => trivial)
      (by rw [hall]; rfl) _ hmem
    exact le_antisymm (ExactScalar.le_iff.mp hfirst) (hle p hp)

variable {lists : FineId → List (Parse EReal)} {i : FineId} {x : FineItem EReal}

theorem fullEdges_sound (hx : f.item? i = some x)
    (hlists : ∀ e ∈ x.edges, ∀ child ∈ e.step.children, Listing f m child (lists child)) :
    ∀ e ∈ fullEdges lists x, e.Sound := by
  intro e' he'
  obtain ⟨e, he, rfl⟩ := List.mem_map.mp he'
  obtain ⟨_, source, ps, _, _, hmade⟩ := hf.sound.exists_source hx
  have hbuilt := (hmade.built_of_mem he).1
  constructor
  · intro c hc
    obtain ⟨child, hchild, rfl⟩ := List.mem_map.mp hc
    rw [Ranking.toList_ofList]
    exact (hlists e he child hchild).descending
  · obtain ⟨ys, hys⟩ : ∃ ys, List.Forall₂ (fun child y => (∃ x, f.item? child = some x ∧ x.score = y) ∧
        y = (Ranking.ofList (lists child)).head?.elim ⊥ Parse.score) e.step.children ys := by
      refine exists_forall₂ fun child hchild => ?_
      obtain ⟨y, hy⟩ := hbuilt.exists_child hchild
      refine ⟨y.score, ⟨y, hy, rfl⟩, ?_⟩
      rw [← Ranking.head?_toList, Ranking.toList_ofList]
      exact (hlists e he child hchild).score_eq hf hc hg hy
    simp only [elim_mapM_head? (List.forall₂_map_left_iff.mpr (hys.imp fun _ _ h => h.2))]
    rw [hbuilt.score_eq (hys.imp fun _ _ h => h.1), total_eq]

theorem exists_edge_of_under (hx : f.item? i = some x) {t : Derivation} {y : EReal}
    (h : f.Under m i t y) : ∃ e ∈ x.edges, ∃ ps : List (Parse EReal),
      List.Forall₂ (fun child p => f.Under m child p.tree p.score) e.step.children ps ∧
      t = e.step.node x.site (ps.map Parse.tree) ∧ y = e.localScore + (ps.map Parse.score).sum := by
  obtain ⟨x', hx', hpacks, hinside⟩ := h
  cases hx.symm.trans hx'
  obtain ⟨span, source, _, hspan, hmem, _⟩ := hf.sound.exists_source hx
  obtain ⟨hcat, hsp⟩ := hf.site_eq hspan hmem ⟨hx, rfl⟩
  have hmemEdges := fun {e : FineEdge EReal} => hf.mem_edges_iff hspan hmem ⟨hx, rfl⟩ (e := e)
  have hget := CoarseChart.item?_of_mem hmem
  rw [hf.sound.coarse_eq] at hpacks
  have hchildItem : ∀ {step : CoarseStep} {id : CoarseId} {t : Derivation} {site : Site} {y : EReal},
      step ∈ source.steps → id ∈ step.children → c.Packs id t → m.Inside f.context t site y →
      ∃ j z, f.Has id j z ∧ z.site = site ∧ f.Under m j t y := by
    intro step id t site y hstep hid hpacks hinside
    obtain ⟨sub, child, hsub, hchild, _⟩ := hc.child hg hspan hmem hstep hid
    obtain ⟨j, z, hz, rfl, _⟩ := hf.exists_item_of_packs hc hg (by decide) hpacks hsub hchild hinside
    refine ⟨j, z, hz, rfl, z, hz.1, ?_, hinside⟩
    rw [hf.sound.coarse_eq, hz.2]
    exact hpacks
  cases hpacks with
  | lexical hget' hstep =>
    cases hget.symm.trans hget'
    cases hinside with
    | leaf hsite hlocal =>
      have hword := hc.word_eq hg hspan hmem hstep
      refine ⟨_, hmemEdges.mpr (.lexical hstep (hword ▸ hsite) hlocal), [], .nil, ?_, by simp⟩
      simp [FineStep.node, hcat, hsp]
  | unary hget' hstep ht =>
    cases hget.symm.trans hget'
    cases hinside with
    | unary hinside hsite hlocal =>
      obtain ⟨j, z, hz, rfl, hunder⟩ := hchildItem hstep (List.mem_singleton.mpr rfl) ht hinside
      refine ⟨_, hmemEdges.mpr (.unary hstep hz hsite hlocal), [⟨_, _⟩], .cons hunder .nil, ?_, ?_⟩
      · simp [FineStep.node, hcat, hsp]
      · simp
  | binary hget' hstep hl hr =>
    cases hget.symm.trans hget'
    cases hinside with
    | binary hinside hinside' hsite hlocal =>
      obtain ⟨j, z, hz, rfl, hunder⟩ := hchildItem hstep List.mem_cons_self hl hinside
      obtain ⟨k, w, hw, rfl, hunder'⟩ :=
        hchildItem hstep (List.mem_cons_of_mem _ (List.mem_singleton.mpr rfl)) hr hinside'
      refine ⟨_, hmemEdges.mpr (.binary hstep hz hw hsite hlocal), [⟨_, _⟩, ⟨_, _⟩],
        .cons hunder (.cons hunder' .nil), ?_, ?_⟩
      · simp [FineStep.node, hcat, hsp]
      · simp

omit x in
/-- If all edges are kept, they make every derivation under an item. -/
theorem derives_of_under (i : FineId) : ∀ {t : Derivation} {y : EReal}, f.Under m i t y → f.Derives i t := by
  induction i using Nat.strong_induction_on with
  | _ i ih =>
    intro t y h
    obtain ⟨x, hx, _⟩ := id h
    obtain ⟨e, he, ps, hps, rfl, -⟩ := exists_edge_of_under hf hc hg hx h
    refine .node hx he (List.forall₂_map_right_iff.mpr (forall₂_imp_of_mem hps fun child hchild p hp => ?_))
    exact ih child (hf.sound.below hx he child hchild) hp

end

end FineChart

end Categorial
