import Categorial.Proofs.Fine.Once
import Categorial.Proofs.KBest.Listing
set_option autoImplicit false

namespace Categorial

namespace FineChart

open Candidate

variable {c : CoarseChart EReal} {m : Model EReal} {f : FineChart EReal} {tags : Supertags EReal}

theorem ne_bot_of_sum {x : EReal} {ps : List (Parse EReal)}
    (h : x + (ps.map Parse.score).sum ≠ ⊥) : ∀ p ∈ ps, p.score ≠ ⊥ := by
  induction ps generalizing x with
  | nil => simp
  | cons p ps ih =>
    rw [List.map_cons, List.sum_cons, ← add_assoc] at h
    intro q hq
    rcases List.mem_cons.mp hq with rfl | hq
    · rintro hbottom
      simp [hbottom] at h
    · exact ih h q hq

section

variable (hf : Finished c m .all f) (hc : c.Saturated tags) (hg : c.grammar.Indexed)

include hf hc hg

variable {lists : FineId → List (Parse EReal)} {i : FineId} {x : FineItem EReal}

theorem fullEdges_distinct (hone : Once c f) (hx : f.item? i = some x)
    (hlists : ∀ e ∈ x.edges, ∀ child ∈ e.step.children, Listing f m child (lists child)) :
    Distinct (fullEdges lists x) := by
  intro a b ea eb rs rs' ps ps' ha hb hpicks hpicks' htree
  obtain ⟨e, he, rfl⟩ := Option.map_eq_some_iff.mp ((List.getElem?_map ..).symm.trans ha)
  obtain ⟨e', he', rfl⟩ := Option.map_eq_some_iff.mp ((List.getElem?_map ..).symm.trans hb)
  have hmemE := List.mem_of_getElem? he
  have hmemE' := List.mem_of_getElem? he'
  have hunder := under_of_picks (hlists e hmemE) hpicks
  have hunder' := under_of_picks (hlists e' hmemE') hpicks'
  have htrees : ∀ {js : List FineId} {ps : List (Parse EReal)},
      List.Forall₂ (fun child p => f.Under m child p.tree p.score) js ps →
      List.Forall₂ (fun child t => ∃ y, f.Under m child t y) js (ps.map Parse.tree) :=
    fun h => List.forall₂_map_right_iff.mpr (h.imp fun _ _ h => ⟨_, h⟩)
  obtain ⟨rfl, hsame⟩ := node_inj hf.sound hc hg hx hmemE hmemE' (htrees hunder) (htrees hunder') htree
  constructor
  · exact index_eq_of_nodup_map (hone.edges i x hx) he he' rfl
  · refine PickedAt.ranks_unique (fun r hr => ?_) hpicks hpicks' hsame
    obtain ⟨child, hchild, rfl⟩ := List.mem_map.mp hr
    rw [Ranking.toList_ofList]
    exact (hlists e hmemE child hchild).nodup

/-- The candidates over the full lists of the children make the full list of an item. -/
theorem listing_of_candidates (hone : Once c f) (hx : f.item? i = some x)
    (hlists : ∀ e ∈ x.edges, ∀ child ∈ e.step.children, Listing f m child (lists child))
    {all : List (Candidate EReal)} (hsorted : all.Pairwise fun a b => before a b = true)
    (hall : ∀ c, c ∈ all ↔ ∃ e, c.Valid (fullEdges lists x) e) :
    Listing f m i (all.map Candidate.parse) where
  descending := descending_parses hsorted
  nodup := nodup_parses hsorted hall (fullEdges_distinct hf hc hg hone hx hlists)
  mem_iff p := by
    rw [mem_parses hall]
    constructor
    · rintro ⟨e', he', rs, ps, hpicks, hne, rfl⟩
      obtain ⟨e, he, rfl⟩ := List.mem_map.mp he'
      refine ⟨?_, hne⟩
      rw [← total_eq]
      exact under_node hf.sound hc hg hx he (under_of_picks (hlists e he) hpicks)
    · rintro ⟨hunder, hne⟩
      obtain ⟨e, he, ps, hps, htree, hscore⟩ := exists_edge_of_under hf hc hg hx hunder
      -- no derivation below is impossible, so all are in the lists
      have hmem : List.Forall₂ (fun child p => p ∈ lists child) e.step.children ps := by
        rw [hscore] at hne
        have hbottom := ne_bot_of_sum hne
        refine List.forall₂_iff_zip.mpr ⟨hps.length_eq, fun {child p} hzip => ?_⟩
        obtain ⟨hchild, hp⟩ := List.of_mem_zip hzip
        exact ((hlists e he child hchild).mem_iff p).mpr ⟨(List.forall₂_iff_zip.mp hps).2 hzip, hbottom p hp⟩
      obtain ⟨rs, hrs⟩ := exists_picks hmem
      refine ⟨_, List.mem_map.mpr ⟨e, he, rfl⟩, rs, ps, hrs, hne, ?_⟩
      obtain ⟨tree, score⟩ := p
      simp only at htree hscore
      rw [htree, hscore]

theorem exists_itemListing (hone : Once c f) (i : FineId) :
    ∀ {x : FineItem EReal}, f.item? i = some x → ∃ all, Listing f m i all ∧
      ∀ k, ∃ r, (f.rankings k)[i]? = some r ∧ r.toList = all.take k := by
  induction i using Nat.strong_induction_on with
  | _ i ih =>
    intro x hx
    -- the lists of all smaller numbers at once, as the edges of the item share children
    have hexists : ∀ j, ∃ all, j < i → ∀ y, f.item? j = some y → Listing f m j all ∧
        ∀ k, ∃ r, (f.rankings k)[j]? = some r ∧ r.toList = all.take k := by
      intro j
      by_cases hj : j < i ∧ ∃ y, f.item? j = some y
      · obtain ⟨hlt, y, hy⟩ := hj
        obtain ⟨all, hall⟩ := ih j hlt hy
        exact ⟨all, fun _ _ _ => hall⟩
      · exact ⟨[], fun hlt y hy => absurd ⟨hlt, y, hy⟩ hj⟩
    choose lists hlists using hexists
    obtain ⟨_, source, ps, _, _, hmade⟩ := hf.sound.exists_source hx
    have hchildren : ∀ e ∈ x.edges, ∀ child ∈ e.step.children, Listing f m child (lists child) ∧
        ∀ k, ∃ r, (f.rankings k)[child]? = some r ∧ r.toList = (lists child).take k := by
      intro e he child hchild
      obtain ⟨hbuilt, hbelow⟩ := hmade.built_of_mem he
      obtain ⟨y, hy⟩ := hbuilt.exists_child hchild
      exact hlists child (hbelow child hchild) y hy
    have hlisting := fun e he child hchild => (hchildren e he child hchild).1
    obtain ⟨all, hsorted, hall, hrank⟩ := exists_listing _ (fullEdges_sound hf hc hg hx hlisting)
    refine ⟨_, listing_of_candidates hf hc hg hone hx hlisting hsorted hall, fun k => ?_⟩
    refine ⟨_, getElem?_rankings k hx fun e he => (hmade.built_of_mem he).2, ?_⟩
    rw [← List.map_take]
    refine hrank k _ ?_
    refine List.forall₂_map_left_iff.mpr (List.forall₂_map_right_iff.mpr
      (List.forall₂_same.mpr fun e he => ⟨rfl, rfl, rfl, ?_⟩))
    refine List.forall₂_map_left_iff.mpr (List.forall₂_map_right_iff.mpr
      (List.forall₂_same.mpr fun child hchild => ?_))
    obtain ⟨r, hr, htake⟩ := (hchildren e he child hchild).2 k
    rw [Ranking.toList_ofList, hr, Option.getD_some, htake]

end

def fullRoots (lists : FineId → List (Parse EReal)) (f : FineChart EReal) : List (RankedEdge EReal) :=
  f.roots.map fun r => ⟨r.localScore, r.score, [Ranking.ofList (lists r.item)], fun trees =>
    trees.head?.getD (.branch ⟨0, 0⟩ ⟨0, 0⟩ [])⟩

theorem picks_root {all : List (Parse EReal)} {rs : List Nat} {ps : List (Parse EReal)} :
    PickedAt [Ranking.ofList all] rs ps ↔ ∃ k p, rs = [k] ∧ ps = [p] ∧ all[k]? = some p := by
  rw [pickedAt_singleton, Ranking.toList_ofList]

section

variable (hf : Finished c m .all f) (hc : c.Saturated tags) (hg : c.grammar.Indexed)
  (hwhole : c.wholeSpan.Within c.sentence.length)

include hf hc hg hwhole

variable {lists : FineId → List (Parse EReal)}
  (hlists : ∀ r ∈ f.roots, Listing f m r.item (lists r.item))

include hlists

omit hwhole in
theorem fullRoots_sound : ∀ e ∈ fullRoots lists f, e.Sound := by
  intro e he
  obtain ⟨r, hr, rfl⟩ := List.mem_map.mp he
  obtain ⟨_, _, x, _, _, hx, _, hscore, _⟩ := hf.sound.root_of_mem hf.roots_eq hr
  constructor
  · intro ranking hranking
    rw [List.mem_singleton.mp hranking, Ranking.toList_ofList]
    exact (hlists r hr).descending
  · have hhead := (hlists r hr).score_eq hf hc hg hx.1
    rw [← Ranking.toList_ofList (lists r.item), Ranking.head?_toList] at hhead
    rw [elim_mapM_head? (.cons hhead .nil), hscore, ExactScalar.both_eq, List.sum_singleton]

theorem fullRoots_distinct (hone : Once c f) : Candidate.Distinct (fullRoots lists f) := by
  intro a b ea eb rs rs' ps ps' ha hb hpicks hpicks' htree
  obtain ⟨r, hr, rfl⟩ := Option.map_eq_some_iff.mp ((List.getElem?_map ..).symm.trans ha)
  obtain ⟨r', hr', rfl⟩ := Option.map_eq_some_iff.mp ((List.getElem?_map ..).symm.trans hb)
  obtain ⟨k, p, rfl, rfl, hp⟩ := picks_root.mp hpicks
  obtain ⟨k', p', rfl, rfl, hp'⟩ := picks_root.mp hpicks'
  have htree : p.tree = p'.tree := htree
  have hlist := hlists r (List.mem_of_getElem? hr)
  have hunder := ((hlist.mem_iff p).mp (List.mem_of_getElem? hp)).1
  have hunder' := (((hlists r' (List.mem_of_getElem? hr')).mem_iff p').mp (List.mem_of_getElem? hp')).1
  have hitem : r.item = r'.item := (under_unique hf.sound hc hg hunder (htree ▸ hunder')).1
  constructor
  · exact index_eq_of_nodup_map (hone.nodup_roots hc hwhole hf.roots_eq) hr hr' hitem
  · rw [← hitem] at hp'
    exact congrArg (fun k => [k]) (index_eq_of_nodup_map hlist.nodup hp hp' htree)

theorem mem_rootParses {all : List (Candidate EReal)}
    (hall : ∀ c, c ∈ all ↔ ∃ e, c.Valid (fullRoots lists f) e) (p : Parse EReal) :
    p ∈ all.map Candidate.parse ↔
      c.Packed p.tree ∧ m.scoreDerivation f.context p.tree = .ok p.score ∧ p.score ≠ ⊥ := by
  rw [mem_parses hall]
  constructor
  · rintro ⟨e, he, rs, ps, hpicks, hne, rfl⟩
    obtain ⟨r, hr, rfl⟩ := List.mem_map.mp he
    obtain ⟨k, p, rfl, rfl, hp⟩ := picks_root.mp hpicks
    have hunder := (((hlists r hr).mem_iff p).mp (List.mem_of_getElem? hp)).1
    obtain ⟨hpacked, hscore⟩ := hf.packed_of_root hr hunder
    simp only [List.map_cons, List.map_nil, List.sum_singleton] at hne ⊢
    exact ⟨hpacked, hscore, hne⟩
  · rintro ⟨hpacked, hscore, hne⟩
    obtain ⟨r, hr, _, y, hunder, hy⟩ :=
      hf.exists_root_ge hc hg (by decide) hwhole hpacked hscore hne
    have hbottom : y ≠ ⊥ := by
      rintro rfl
      simp [hy] at hne
    obtain ⟨k, hk⟩ := List.mem_iff_getElem?.mp
      (((hlists r hr).mem_iff ⟨p.tree, y⟩).mpr ⟨hunder, hbottom⟩)
    refine ⟨_, List.mem_map.mpr ⟨r, hr, rfl⟩, _, _, picks_root.mpr ⟨k, _, rfl, rfl, hk⟩, hne, ?_⟩
    simp [← hy]

end

theorem Finished.exists_parses (hf : Finished c m .all f) (hc : c.Saturated tags)
    (hg : c.grammar.Indexed) (hwhole : c.wholeSpan.Within c.sentence.length) (hone : Once c f) :
    ∃ all : List (Parse EReal), (∀ k, f.kBest k = all.take k) ∧ Descending Parse.score all ∧
      (all.map Parse.tree).Nodup ∧ ∀ p, p ∈ all ↔
        c.Packed p.tree ∧ m.scoreDerivation f.context p.tree = .ok p.score ∧ p.score ≠ ⊥ := by
  have hexists : ∀ i, ∃ all, ∀ x, f.item? i = some x → Listing f m i all ∧
      ∀ k, ∃ r, (f.rankings k)[i]? = some r ∧ r.toList = all.take k := by
    intro i
    cases hx : f.item? i with
    | none => exact ⟨[], fun _ h => by cases h⟩
    | some x =>
      obtain ⟨all, hall⟩ := exists_itemListing hf hc hg hone i hx
      exact ⟨all, fun _ _ => hall⟩
  choose lists hlists using hexists
  have hroot : ∀ r ∈ f.roots, ∃ x, f.item? r.item = some x := by
    intro r hr
    obtain ⟨_, _, x, _, _, hx, _⟩ := hf.sound.root_of_mem hf.roots_eq hr
    exact ⟨x, hx.1⟩
  have hlisting : ∀ r ∈ f.roots, Listing f m r.item (lists r.item) := by
    intro r hr
    obtain ⟨x, hx⟩ := hroot r hr
    exact (hlists r.item x hx).1
  obtain ⟨all, hsorted, hall, hrank⟩ := exists_listing _ (fullRoots_sound hf hc hg hlisting)
  refine ⟨all.map Candidate.parse, fun k => ?_, descending_parses hsorted,
    nodup_parses hsorted hall (fullRoots_distinct hf hc hg hwhole hlisting hone),
    mem_rootParses hf hc hg hwhole hlisting hall⟩
  have htruncated : List.Forall₂ (RankedEdge.Truncated k) (fullRoots lists f)
      (f.rootEdges (f.rankings k)) := by
    refine List.forall₂_map_left_iff.mpr (List.forall₂_map_right_iff.mpr
      (List.forall₂_same.mpr fun r hr => ⟨rfl, rfl, rfl, .cons ?_ .nil⟩))
    obtain ⟨x, hx⟩ := hroot r hr
    obtain ⟨ranking, hget, htake⟩ := (hlists r.item x hx).2 k
    rw [Ranking.toList_ofList, hget, Option.getD_some, htake]
  rw [kBest, Ranking.take_eq, hrank k _ htruncated, ← List.map_take, List.take_take, Nat.min_self,
    List.map_take]

/-- Without a beam and with every edge kept, the best `k` derivations are the first `k` of all that are
not impossible, each once and in descending order. -/
theorem kBest_enumerates {g : Grammar} {s : Sentence} {beta : EReal} {maxItems gid : Nat}
    {categories : Array Category} {rules : List Rule} {markups : List (CatId × Markup)}
    (hg : Grammar.ofRules gid categories rules markups = .ok g)
    (hc : CoarseChart.build g s tags beta maxItems = .ok c) (hm : m.grammarId = g.id)
    (htags : tags.Distinct) :
    ∃ f, FineChart.build c m .all none = .ok f ∧
      ∃ all : List (Parse EReal), (∀ k, f.kBest k = all.take k) ∧
        all.Pairwise (fun p q => q.score ≤ p.score) ∧ (all.map Parse.tree).Nodup ∧
        ∀ p, p ∈ all ↔
          c.Packed p.tree ∧ m.scoreDerivation ⟨g, s⟩ p.tree = .ok p.score ∧ p.score ≠ ⊥ := by
  obtain ⟨rfl, rfl, hsat, hwhole⟩ := CoarseChart.build_ok hc
  have hindexed := Grammar.indexed_ofRules hg
  obtain ⟨f, hbuild⟩ := exists_build c hm .all none
  have hf := finished_build hsat hindexed hbuild
  have hsteps : c.StepsOnce := fun _ hspan _ _ hmem => hsat.nodup_steps hindexed htags hspan hmem
  obtain ⟨all, hkBest, hdescending, hnodup, hall⟩ :=
    hf.exists_parses hsat hindexed hwhole (once_build hsteps hbuild)
  rw [hf.sound.context_eq] at hall
  exact ⟨f, hbuild, all, hkBest, hdescending.imp fun h => ExactScalar.le_iff.mp h, hnodup, hall⟩

end FineChart

namespace Sample

theorem kBest_enumerates_dogs_run : ∃ g c, Grammar.ofRules 7 categories rules [] = .ok g ∧
    CoarseChart.build g dogsRun tags 1 10 = .ok c ∧ flat.grammarId = g.id ∧ tags.Distinct ∧
    ∃ f, FineChart.build c flat .all none = .ok f ∧
      ∃ all : List (Parse EReal), (∀ k, f.kBest k = all.take k) ∧
        all.Pairwise (fun p q => q.score ≤ p.score) ∧ (all.map Parse.tree).Nodup ∧
        ∀ p, p ∈ all ↔
          c.Packed p.tree ∧ flat.scoreDerivation ⟨g, dogsRun⟩ p.tree = .ok p.score ∧ p.score ≠ ⊥ := by
  obtain ⟨g, hg, hid, hrules⟩ := exists_grammar
  have hbuild := build_eq (Grammar.indexed_ofRules hg) hrules
  have htags : tags.Distinct := by
    intro word
    rcases word with _ | _ | word <;> simp [Supertags.all, tags]
  exact ⟨g, chart g, hg, hbuild, hid.symm, htags, FineChart.kBest_enumerates hg hbuild hid.symm htags⟩

end Sample

end Categorial
