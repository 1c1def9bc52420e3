import Categorial.Proofs.Fine.Truncated
import Categorial.Proofs.KBest.Scores
set_option autoImplicit false

/-!
The best `k` derivations need no more than `k` edges of each item. Edges are in descending order, and the
first derivation of each stands before all derivations of the later ones; so what is over an edge behind the
first `k` has `k` derivations before it.
-/

namespace Categorial

namespace Candidate

variable {edges : List (RankedEdge EReal)} {c : Candidate EReal} {e : RankedEdge EReal}

/-- A candidate over an edge that is not the first comes behind the first one over the edge before. -/
theorem Valid.exists_before_edge (h : c.Valid edges e) (hsound : ∀ e ∈ edges, e.Sound)
    (hdesc : Descending RankedEdge.score edges) {n : Nat} (hn : c.edge = n + 1) :
    ∃ (u : Candidate EReal) (e' : RankedEdge EReal), u.Valid edges e' ∧ before u c = true ∧ u.edge = n := by
  have hget := h.edge
  rw [hn] at hget
  obtain ⟨hlt, heq⟩ := List.getElem?_eq_some_iff.mp hget
  have hlt' : n < edges.length := by omega
  have hle := List.pairwise_iff_getElem.mp hdesc n (n + 1) hlt' hlt (by omega)
  rw [heq, ExactScalar.le_iff] at hle
  have hscore : c.parse.score ≤ edges[n].score :=
    (h.le_score (hsound e (List.mem_of_getElem? h.edge))).trans hle
  obtain ⟨_, _, _, _, hne, _⟩ := valid_iff.mp h
  obtain ⟨u, hu, hedge, hfirst⟩ := exists_valid_first hsound (List.getElem?_eq_getElem hlt')
    fun hbottom => hne (le_bot_iff.mp (hbottom ▸ hscore))
  refine ⟨u, _, hu, ?_, hedge⟩
  rw [← hfirst] at hscore
  rw [before_iff, cmp, key, key, hedge, hn, List.compare_cons_cons, Ordering.then_eq_lt]
  rcases lt_or_eq_of_le hscore with hlt | heq
  · exact .inl (compare_lt_iff_lt.mpr hlt)
  · exact .inr ⟨compare_eq_iff_eq.mpr heq, by simp [Nat.compare_eq_lt.mpr (Nat.lt_succ_self n)]⟩

theorem valid_take {k : Nat} :
    c.Valid (edges.take k) e ↔ c.Valid edges e ∧ c.edge < k := by
  constructor
  · intro h
    have hedge := h.edge
    rw [List.getElem?_take] at hedge
    split at hedge
    · rename_i hlt
      exact ⟨⟨hedge, h.length, h.made⟩, hlt⟩
    · cases hedge
  · rintro ⟨h, hlt⟩
    exact ⟨by rw [List.getElem?_take, if_pos hlt]; exact h.edge, h.length, h.made⟩

end Candidate

namespace FineChart

open Candidate

theorem rank_take {edges : List (RankedEdge EReal)} (hsound : ∀ e ∈ edges, e.Sound)
    (hdesc : Descending RankedEdge.score edges) (k : Nat) : rank k (edges.take k) = rank k edges := by
  obtain ⟨all, hsorted, hall, hrank⟩ := exists_candidates hsound
  have hsound' : ∀ e ∈ edges.take k, e.Sound := fun e he => hsound e (List.mem_of_mem_take he)
  obtain ⟨all', hsorted', hall', hrank'⟩ := exists_candidates hsound'
  have hfilter : all' = all.filter fun c => c.edge < k := by
    refine List.Perm.eq_of_pairwise (fun a b _ _ hab hba => ?_) hsorted' (hsorted.filter _)
      ((List.perm_ext_iff_of_nodup (nodup_of_sorted hsorted') ((nodup_of_sorted hsorted).filter _)).mpr
        fun c => ?_)
    · simp [strictWeak.asymm a b hab] at hba
    · simp only [List.mem_filter, hall', hall, valid_take, exists_and_right, decide_eq_true_eq]
  refine Ranking.toList_inj ?_
  rw [hrank, hrank', hfilter, take_filter_eq]
  -- there are as many candidates before one as edges before its own
  intro c hc
  obtain ⟨j, hj⟩ := List.mem_iff_getElem?.mp hc
  rw [List.getElem?_take] at hj
  split at hj
  · rename_i hlt
    refine decide_eq_true (Nat.lt_of_le_of_lt ?_ hlt)
    refine le_index_of_before hsorted (fun c n => c.edge = n) (fun c hc n hn => ?_) j hj _ rfl
    obtain ⟨e, hvalid⟩ := (hall c).mp hc
    obtain ⟨u, e', hu, hbefore, hedge⟩ := hvalid.exists_before_edge hsound hdesc hn
    exact ⟨u, (hall u).mpr ⟨e', hu⟩, hbefore, hedge⟩
  · cases hj

variable {c : CoarseChart EReal} {m : Model EReal} {f : FineChart EReal} {tags : Supertags EReal}
  {retain : Retain}

theorem rankedEdges_truncate (k : Nat) (rankings : Array (Ranking (Parse EReal))) (x : FineItem EReal) :
    rankedEdges rankings (x.truncate k) = (rankedEdges rankings x).take k := by
  unfold rankedEdges FineItem.truncate
  rw [List.map_take]

theorem rankings_truncate (hs : Sound c m retain ((cellsOf c (spansOf c.sentence.length)).map Prod.fst) f)
    (hc : c.Saturated tags) (hg : c.grammar.Indexed) {k : Nat} (hk : 0 < k) :
    (f.truncate k).rankings k = f.rankings k := by
  obtain ⟨n, rfl⟩ := Nat.exists_eq_succ_of_ne_zero (Nat.pos_iff_ne_zero.mp hk)
  have hsize : ∀ f : FineChart EReal, (f.rankings (n + 1)).size = f.items.size := by
    intro f
    rw [rankings, ← Array.foldl_toList, (getElem?_foldl_push _ f.items.toList).1, Array.length_toList]
  refine Array.ext_getElem? fun i => ?_
  induction i using Nat.strong_induction_on with
  | _ i ih =>
    cases hx : f.item? i with
    | none =>
      have hge : f.items.size ≤ i := Array.getElem?_eq_none_iff.mp hx
      have htruncated : (f.truncate (n + 1)).items.size = f.items.size := Array.size_map
      rw [Array.getElem?_eq_none (by rw [hsize, htruncated]; exact hge),
        Array.getElem?_eq_none (by rw [hsize]; exact hge)]
    | some x =>
      obtain ⟨_, _, _, _, _, hmade⟩ := hs.exists_source hx
      have hx' : (f.truncate (n + 1)).item? i = some (x.truncate (n + 1)) := by simp [hx]
      have hbelow : ∀ e ∈ x.edges, ∀ child ∈ e.step.children, child < i := fun e he =>
        (hmade.built_of_mem he).2
      rw [getElem?_rankings (n + 1) hx hbelow,
        getElem?_rankings (n + 1) hx' fun e he => hbelow e (List.mem_of_mem_take he)]
      -- the rankings of the children are the same already
      have hchildren : rankedEdges ((f.truncate (n + 1)).rankings (n + 1)) x =
          rankedEdges (f.rankings (n + 1)) x := by
        refine List.map_congr_left fun e he => ?_
        have hsame : (e.step.children.map fun child =>
            ((f.truncate (n + 1)).rankings (n + 1))[child]?.getD .nil) =
              e.step.children.map fun child => (f.rankings (n + 1))[child]?.getD .nil :=
          List.map_congr_left fun child hchild => by rw [ih child (hbelow e he child hchild)]
        rw [hsame]
      rw [rankedEdges_truncate, hchildren, rank_take (rankedEdges_sound hs hc hg n hx)
        (descending_rankedEdges hs hx _)]

/-- The best `k` derivations are the same, with ties in the same order, whether a pass keeps `k` edges of each
item or all of them. -/
theorem kBest_retained {gid : Nat} {categories : Array Category} {rules : List Rule}
    {markups : List (CatId × Markup)} {g : Grammar} {s : Sentence} {beta : EReal} {maxItems : Nat}
    (hg : Grammar.ofRules gid categories rules markups = .ok g)
    (hc : CoarseChart.build g s tags beta maxItems = .ok c) (hm : m.grammarId = g.id) {k : Nat} (hk : 0 < k)
    (beam : Option EReal) : ∃ f f', build c m (.kBest k) beam = .ok f ∧ build c m .all beam = .ok f' ∧
      f.kBest k = f'.kBest k := by
  obtain ⟨rfl, _, hsat, _⟩ := CoarseChart.build_ok hc
  obtain ⟨f', hf'⟩ := exists_build c hm .all beam
  refine ⟨f'.truncate k, f', build_truncate hk hf', hf', ?_⟩
  rw [kBest, kBest, rankings_truncate (sound_build hsat hf') hsat (Grammar.indexed_ofRules hg) hk]
  rfl

end FineChart

namespace Sample

theorem kBest_retained_dogs_run : ∃ g c, Grammar.ofRules 7 categories rules [] = .ok g ∧
    CoarseChart.build g dogsRun tags 1 10 = .ok c ∧ flat.grammarId = g.id ∧ 0 < 1 ∧
    ∃ f f', FineChart.build c flat (.kBest 1) none = .ok f ∧ FineChart.build c flat .all none = .ok f' ∧
      f.kBest 1 = f'.kBest 1 := by
  obtain ⟨g, hg, hid, hrules⟩ := exists_grammar
  have hc := build_eq (Grammar.indexed_ofRules hg) hrules
  exact ⟨g, chart g, hg, hc, hid.symm, Nat.one_pos,
    FineChart.kBest_retained hg hc hid.symm Nat.one_pos none⟩

end Sample

end Categorial
