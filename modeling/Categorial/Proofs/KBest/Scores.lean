import Categorial.Proofs.KBest.Listing
set_option autoImplicit false

namespace Categorial

theorem PickedAt.le_first {cs : List (Ranking (Parse EReal))} {rs : List Nat} {ps : List (Parse EReal)}
    (h : PickedAt cs rs ps) (hdesc : ∀ c ∈ cs, Descending Parse.score c.toList) :
    ∃ firsts, cs.mapM Ranking.head? = some firsts ∧
      (ps.map Parse.score).sum ≤ (firsts.map Parse.score).sum := by
  induction h with
  | nil => exact ⟨[], rfl, le_refl _⟩
  | @cons c r p cs rs ps hp _ ih =>
    obtain ⟨firsts, hfirsts, hle⟩ := ih fun c hc => hdesc c (by simp [hc])
    have hmem := List.mem_of_getElem? hp
    cases hhead : c.toList.head? with
    | none =>
      rw [List.head?_eq_none_iff.mp hhead] at hmem
      cases hmem
    | some first =>
      have hscore := (hdesc c (by simp)).le_head ExactScalar.totalOn (fun _ _ => trivial) hhead p hmem
      rw [ExactScalar.le_iff] at hscore
      rw [Ranking.head?_toList] at hhead
      refine ⟨first :: firsts, ?_, ?_⟩
      · rw [List.mapM_cons, hhead, hfirsts]
        rfl
      · simpa only [List.map_cons, List.sum_cons] using add_le_add hscore hle

namespace Candidate

variable {edges : List (RankedEdge EReal)} {c : Candidate EReal} {e : RankedEdge EReal}

theorem Valid.le_score (h : c.Valid edges e) (he : e.Sound) : c.parse.score ≤ e.score := by
  obtain ⟨_, _, picked, hpicked, _, hparse⟩ := valid_iff.mp h
  obtain ⟨firsts, hfirsts, hle⟩ := hpicked.le_first he.descending
  rw [hparse, he.score_eq, hfirsts]
  exact add_le_add_right hle _

/-- The first candidate of an edge that is not impossible has the edge's score. -/
theorem exists_valid_first (hsound : ∀ e ∈ edges, e.Sound) {i : Nat} (he : edges[i]? = some e)
    (hne : e.score ≠ ⊥) :
    ∃ c : Candidate EReal, c.Valid edges e ∧ c.edge = i ∧ c.parse.score = e.score := by
  cases hfirst : e.first? i with
  | none => simp [RankedEdge.first?, hne] at hfirst
  | some c =>
    obtain ⟨e', hvalid, _⟩ :=
      (Frontier.mem_firstsOf_iff hsound).mp (Frontier.mem_firstsOf.mpr ⟨e, i, he, hfirst⟩)
    have hedge := Frontier.edge_of_first? hfirst
    cases he.symm.trans (hedge ▸ hvalid.edge)
    refine ⟨c, hvalid, hedge, ?_⟩
    simp only [RankedEdge.first?, ExactScalar.isBottom_iff, if_neg hne, Option.some.injEq] at hfirst
    rw [← hfirst]

end Candidate

namespace FineChart

open Candidate

theorem exists_candidates {edges : List (RankedEdge EReal)} (hsound : ∀ e ∈ edges, e.Sound) :
    ∃ all : List (Candidate EReal), all.Pairwise (fun a b => before a b = true) ∧
      (∀ c, c ∈ all ↔ ∃ e, c.Valid edges e) ∧
      ∀ k, (rank k edges).toList = (all.take k).map Candidate.parse := by
  obtain ⟨all, hsorted, hall⟩ := exists_sorted_valid edges
  obtain ⟨hready, hfed⟩ := Frontier.start_ready hsound hsorted hall
  exact ⟨all, hsorted, hall, fun k => hready.ranking_eq k hfed⟩

theorem score_head?_rank {e : RankedEdge EReal} {rest : List (RankedEdge EReal)}
    (hsound : ∀ e' ∈ e :: rest, e'.Sound) (hdesc : Descending RankedEdge.score (e :: rest)) (k : Nat) :
    (rank (k + 1) (e :: rest)).head?.elim ⊥ Parse.score = e.score := by
  obtain ⟨all, hsorted, hall, hrank⟩ := exists_candidates hsound
  have hle : ∀ c ∈ all, c.parse.score ≤ e.score := by
    intro c hc
    obtain ⟨e', hvalid⟩ := (hall c).mp hc
    have hmem := List.mem_of_getElem? hvalid.edge
    have hfirst := hdesc.le_head ExactScalar.totalOn (fun _ _ => trivial) rfl e' hmem
    exact (hvalid.le_score (hsound e' hmem)).trans (ExactScalar.le_iff.mp hfirst)
  rw [← Ranking.head?_toList, hrank]
  cases all with
  | nil =>
    by_contra hne
    obtain ⟨c, hvalid, _⟩ := exists_valid_first hsound (i := 0) rfl (Ne.symm hne)
    exact List.not_mem_nil ((hall c).mpr ⟨e, hvalid⟩)
  | cons c all =>
    obtain ⟨_, hvalid⟩ := (hall c).mp (by simp)
    obtain ⟨_, _, _, _, hne, _⟩ := valid_iff.mp hvalid
    have hbottom : e.score ≠ ⊥ := fun h => hne (le_bot_iff.mp (h ▸ hle c (by simp)))
    obtain ⟨d, hd, _, hscore⟩ := exists_valid_first hsound (i := 0) rfl hbottom
    have hfirst := (descending_parses hsorted).le_head ExactScalar.totalOn (fun _ _ => trivial) rfl d.parse
      (List.mem_map_of_mem ((hall d).mpr ⟨e, hd⟩))
    rw [ExactScalar.le_iff, hscore] at hfirst
    exact le_antisymm (hle c (by simp)) hfirst

variable {c : CoarseChart EReal} {m : Model EReal} {f : FineChart EReal} {tags : Supertags EReal}
  {retain : Retain}

/-- A ranking of derivations under an item, best first, the first of which has the item's score. -/
structure RanksUnder (f : FineChart EReal) (m : Model EReal) (i : FineId) (x : FineItem EReal)
    (r : Ranking (Parse EReal)) : Prop where
  descending : Descending Parse.score r.toList
  score_head? : r.head?.elim ⊥ Parse.score = x.score
  under : ∀ p ∈ r.toList, f.Under m i p.tree p.score

theorem Built.rankedEdge_sound {source : CoarseItem} {site : Site} {e : FineEdge EReal}
    (hbuilt : f.Built m source site e) {rankings : Array (Ranking (Parse EReal))}
    (hranks : ∀ child ∈ e.step.children, ∀ y, f.item? child = some y →
      ∃ r, rankings[child]? = some r ∧ f.RanksUnder m child y r) (node : List Derivation → Derivation) :
    RankedEdge.Sound ⟨e.localScore, e.score, e.step.children.map fun child => rankings[child]?.getD .nil,
      node⟩ where
  descending r hr := by
    obtain ⟨child, hchild, rfl⟩ := List.mem_map.mp hr
    obtain ⟨y, hy⟩ := hbuilt.exists_child hchild
    obtain ⟨r, hr, hranks⟩ := hranks child hchild y hy
    rw [hr]
    exact hranks.descending
  score_eq := by
    obtain ⟨ys, hys⟩ : ∃ ys, List.Forall₂ (fun child y => (∃ x, f.item? child = some x ∧ x.score = y) ∧
        y = (rankings[child]?.getD .nil).head?.elim ⊥ Parse.score) e.step.children ys := by
      refine exists_forall₂ fun child hchild => ?_
      obtain ⟨y, hy⟩ := hbuilt.exists_child hchild
      obtain ⟨r, hr, hranks⟩ := hranks child hchild y hy
      refine ⟨y.score, ⟨y, hy, rfl⟩, ?_⟩
      rw [hr]
      exact hranks.score_head?.symm
    rw [elim_mapM_head? (List.forall₂_map_left_iff.mpr (hys.imp fun _ _ h => h.2)),
      hbuilt.score_eq (hys.imp fun _ _ h => h.1), total_eq]

section

variable (hs : Sound c m retain ((cellsOf c (spansOf c.sentence.length)).map Prod.fst) f)

include hs

theorem descending_rankedEdges {i : FineId} {x : FineItem EReal} (hx : f.item? i = some x)
    (rankings : Array (Ranking (Parse EReal))) :
    Descending RankedEdge.score (rankedEdges rankings x) := by
  obtain ⟨_, _, ps, _, _, hmade⟩ := hs.exists_source hx
  refine List.pairwise_map.mpr ?_
  rw [hmade.item_eq]
  exact descending_kept ExactScalar.totalOn fun _ _ => trivial

variable (hc : c.Saturated tags) (hg : c.grammar.Indexed)

include hc hg

theorem ranksUnder_rankings (k : Nat) (i : FineId) : ∀ {x : FineItem EReal}, f.item? i = some x →
    ∃ r, (f.rankings (k + 1))[i]? = some r ∧ f.RanksUnder m i x r := by
  -- children have smaller numbers than their item
  induction i using Nat.strong_induction_on with
  | _ i ih =>
    intro x hx
    obtain ⟨_, source, _, _, _, hmade⟩ := hs.exists_source hx
    have hsound : ∀ e' ∈ rankedEdges (f.rankings (k + 1)) x, e'.Sound := by
      intro e' he'
      obtain ⟨e, he, rfl⟩ := List.mem_map.mp he'
      obtain ⟨hbuilt, hbelow⟩ := hmade.built_of_mem he
      exact hbuilt.rankedEdge_sound (fun child hchild y hy => ih child (hbelow child hchild) hy) _
    refine ⟨_, getElem?_rankings (k + 1) hx fun e he => (hmade.built_of_mem he).2, ?_, ?_, fun p hp => ?_⟩
    · obtain ⟨all, hsorted, _, hrank⟩ := exists_candidates hsound
      rw [hrank, List.map_take]
      exact (descending_parses hsorted).sublist (List.take_sublist _ _)
    · obtain ⟨e, rest, hedges, hscore⟩ := hmade.exists_first
      have hdesc := descending_rankedEdges hs hx (f.rankings (k + 1))
      have hcons : rankedEdges (f.rankings (k + 1)) x = _ :: _ := congrArg (List.map _) hedges
      rw [hcons] at hsound hdesc ⊢
      rw [score_head?_rank hsound hdesc, hscore]
    · obtain ⟨all, _, hall, hrank⟩ := exists_candidates hsound
      rw [hrank, List.map_take] at hp
      obtain ⟨e', he', rs, picked, hpicked, _, rfl⟩ := (mem_parses hall).mp (List.mem_of_mem_take hp)
      obtain ⟨e, he, rfl⟩ := List.mem_map.mp he'
      obtain ⟨hbuilt, hbelow⟩ := hmade.built_of_mem he
      have hunder : List.Forall₂ (fun child q => f.Under m child q.tree q.score) e.step.children picked := by
        refine forall₂_imp_of_mem (List.forall₂_map_left_iff.mp hpicked.forall₂_mem) fun child hchild q hq => ?_
        obtain ⟨y, hy⟩ := hbuilt.exists_child hchild
        obtain ⟨r, hr, hranks⟩ := ih child (hbelow child hchild) hy
        rw [hr] at hq
        exact hranks.under q hq
      rw [← total_eq]
      exact under_node hs hc hg hx he hunder

theorem rankedEdges_sound (k : Nat) {i : FineId} {x : FineItem EReal} (hx : f.item? i = some x) :
    ∀ e ∈ rankedEdges (f.rankings (k + 1)) x, e.Sound := by
  intro e' he'
  obtain ⟨_, _, _, _, _, hmade⟩ := hs.exists_source hx
  obtain ⟨e, he, rfl⟩ := List.mem_map.mp he'
  exact (hmade.built_of_mem he).1.rankedEdge_sound
    (fun child _ y hy => ranksUnder_rankings hs hc hg k child hy) _

end

end FineChart

end Categorial
