import Categorial.Proofs.Fine.Once
import Categorial.Proofs.KBest.Members
import Categorial.Proofs.KBest.Ranked
set_option autoImplicit false

/-!
A ranking has no derivation twice, whatever the scores, the beam and the retention are, if no coarse item has a step
twice. The frontier never takes two candidates of one key, and the tree of a candidate tells its key: the edge, as no
step is kept twice, and the places, as the rankings below have no derivation twice.
-/

namespace Categorial

variable {α : Type} [Scalar α]

theorem pickedAt_origin {α : Type} {cs : List (Ranking (Parse α))} (h : ∀ r ∈ cs, r.head? ≠ none) :
    PickedAt cs (cs.map fun _ => 0) (cs.filterMap Ranking.head?) := by
  induction cs with
  | nil => exact .nil
  | cons r cs ih =>
    obtain ⟨p, hp⟩ := Option.ne_none_iff_exists'.mp (h r (by simp))
    rw [List.filterMap_cons_some hp, List.map_cons]
    refine .cons ?_ (ih fun r hr => h r (by simp [hr]))
    rw [← List.head?_eq_getElem?, Ranking.head?_toList, hp]

namespace Candidate

/-- The derivation of the candidate is what its edge makes at its places. -/
def Located {α : Type} (edges : List (RankedEdge α)) (c : Candidate α) : Prop :=
  ∃ e picked, edges[c.edge]? = some e ∧ c.children = placed e.children c.ranks ∧
    PickedAt e.children c.ranks picked ∧ c.parse.tree = e.node (picked.map Parse.tree)

variable {edges : List (RankedEdge α)} {c d : Candidate α} {e : RankedEdge α}

theorem located_of_candidate? {i : Nat} {ranks : List Nat} (he : edges[i]? = some e)
    (hlen : ranks.length = e.children.length)
    (h : e.candidate? i ranks (placed e.children ranks) = some c) : c.Located edges := by
  obtain ⟨picked, hpicked, h⟩ := Option.bind_eq_some_iff.mp h
  simp only at h
  split at h
  · cases h
  · cases h
    exact ⟨e, picked, he, rfl, (mapM_head?_placed hlen).mp hpicked, rfl⟩

theorem located_of_first? {i : Nat} (he : edges[i]? = some e)
    (hchildren : Scalar.isBottom e.score = false → ∀ r ∈ e.children, r.head? ≠ none)
    (h : e.first? i = some c) : c.Located edges := by
  obtain ⟨hbottom, rfl⟩ := first?_eq_some.mp h
  exact ⟨e, _, he, (RankedEdge.placed_origin e.children).symm, pickedAt_origin (hchildren hbottom), rfl⟩

omit [Scalar α] in
theorem Located.key_eq (hdistinct : Distinct edges) (hc : c.Located edges) (hd : d.Located edges)
    (h : c.parse.tree = d.parse.tree) : c.key = d.key := by
  obtain ⟨e, ps, he, _, hps, hc⟩ := hc
  obtain ⟨e', ps', he', _, hps', hd⟩ := hd
  obtain ⟨hedge, hranks⟩ := hdistinct he he' hps hps' (hc.symm.trans (h.trans hd))
  rw [key, key, hedge, hranks]

end Candidate

namespace Frontier

open Candidate

variable {edges : List (RankedEdge α)} {f : Frontier α}

/-- A candidate of this key may still be taken. -/
def Open {α : Type} (f : Frontier α) (key : List Nat) : Prop :=
  key ∉ f.seen ∨ key ∈ f.waiting.toList.map Candidate.key

/-- No two candidates of one key wait, and what waits has been seen. -/
structure Single {α : Type} (edges : List (RankedEdge α)) (f : Frontier α) : Prop where
  located : ∀ c ∈ f.waiting.toList, c.Located edges
  nodup : (f.waiting.toList.map Candidate.key).Nodup
  seen : ∀ c ∈ f.waiting.toList, c.key ∈ f.seen

theorem Single.offer (h : Single edges f) {i : Nat} {e : RankedEdge α} (he : edges[i]? = some e)
    {ranks : List Nat} (hlen : ranks.length = e.children.length) :
    Single edges (offer i e f (ranks, placed e.children ranks)) ∧
      ∀ key, (offer i e f (ranks, placed e.children ranks)).Open key → f.Open key := by
  unfold Frontier.offer
  split
  · exact ⟨h, fun _ hkey => hkey⟩
  · rename_i hseen
    have hseen : i :: ranks ∉ f.seen := fun hmem => hseen (Std.TreeSet.mem_iff_contains.mp hmem)
    cases hmade : e.candidate? i ranks (placed e.children ranks) with
    | none =>
      refine ⟨⟨h.located, h.nodup, fun c hc => mem_seen_insert.mpr (.inr (h.seen c hc))⟩, fun key hkey => ?_⟩
      exact hkey.imp (fun hnot hmem => hnot (mem_seen_insert.mpr (.inr hmem))) id
    | some new =>
      have hkey : new.key = i :: ranks := key_of_candidate? hmade
      have hperm := Heap.toList_push before f.waiting new
      have hmem : ∀ c, c ∈ (f.waiting.push before new).toList ↔ c = new ∨ c ∈ f.waiting.toList := fun c => by
        rw [hperm.mem_iff, List.mem_cons]
      refine ⟨⟨fun c hc => ?_, ?_, fun c hc => ?_⟩, fun key hopen => ?_⟩
      · rcases (hmem c).mp hc with rfl | hc
        · exact located_of_candidate? he hlen hmade
        · exact h.located c hc
      · refine (hperm.map Candidate.key).nodup_iff.mpr (List.nodup_cons.mpr ⟨fun hwaits => ?_, h.nodup⟩)
        obtain ⟨c, hc, heq⟩ := List.mem_map.mp hwaits
        exact hseen (hkey ▸ heq ▸ h.seen c hc)
      · rcases (hmem c).mp hc with rfl | hc
        · exact mem_seen_insert.mpr (.inl hkey)
        · exact mem_seen_insert.mpr (.inr (h.seen c hc))
      · rcases hopen with hnot | hwaits
        · exact .inl fun hmem => hnot (mem_seen_insert.mpr (.inr hmem))
        · obtain ⟨c, hc, rfl⟩ := List.mem_map.mp hwaits
          rcases (hmem c).mp hc with rfl | hc
          · exact .inl (hkey ▸ hseen)
          · exact .inr (List.mem_map_of_mem hc)

theorem Single.foldl_offer {i : Nat} {e : RankedEdge α} (he : edges[i]? = some e) {places : List (List Nat)} :
    ∀ {f : Frontier α}, Single edges f → (∀ rs ∈ places, rs.length = e.children.length) →
      Single edges ((places.map fun rs => (rs, placed e.children rs)).foldl (Frontier.offer i e) f) ∧
        ∀ key, ((places.map fun rs => (rs, placed e.children rs)).foldl (Frontier.offer i e) f).Open key →
          f.Open key := by
  induction places with
  | nil => exact fun h _ => ⟨h, fun _ hkey => hkey⟩
  | cons first places ih =>
    intro f h hlen
    obtain ⟨h', hopen⟩ := h.offer he (hlen first (by simp))
    obtain ⟨h'', hopen'⟩ := ih h' fun rs hrs => hlen rs (by simp [hrs])
    exact ⟨h'', fun key hkey => hopen key (hopen' key hkey)⟩

theorem Single.advance (h : Single edges f) {c : Candidate α} (hc : c.Located edges) :
    Single edges (advance edges.toArray f c) ∧ ∀ key, (advance edges.toArray f c).Open key → f.Open key := by
  obtain ⟨e, picked, he, hchildren, hpicked, _⟩ := hc
  rw [advance_eq he hchildren hpicked.length]
  exact h.foldl_offer he fun rs hrs => (length_of_mem_bumps hrs).trans hpicked.length

theorem Single.pop {w : Candidate α} {rest : Heap (Candidate α)} (h : Single edges f)
    (hp : f.waiting.pop? before = some (w, rest)) :
    w.Located edges ∧ Single edges { f with waiting := rest } ∧ f.Open w.key ∧
      ¬Open { f with waiting := rest } w.key ∧ ∀ key, Open { f with waiting := rest } key → f.Open key := by
  have hperm := Heap.toList_pop? hp
  have hw : w ∈ f.waiting.toList := hperm.mem_iff.mpr List.mem_cons_self
  have hrest : ∀ c ∈ rest.toList, c ∈ f.waiting.toList := fun c hc => hperm.mem_iff.mpr (List.mem_cons_of_mem _ hc)
  obtain ⟨hnot, hnodup⟩ := List.nodup_cons.mp ((hperm.map Candidate.key).nodup_iff.mp h.nodup)
  refine ⟨h.located w hw, ⟨fun c hc => h.located c (hrest c hc), hnodup, fun c hc => h.seen c (hrest c hc)⟩,
    .inr (List.mem_map_of_mem hw), fun hopen => ?_, fun key hopen => hopen.imp id fun hmem => ?_⟩
  · exact hopen.elim (fun hunseen => hunseen (h.seen w hw)) hnot
  · obtain ⟨c, hc, rfl⟩ := List.mem_map.mp hmem
    exact List.mem_map_of_mem (hrest c hc)

theorem single_start [Std.TransCmp (Scalar.compare : α → α → Ordering)]
    (hchildren : ∀ e ∈ edges, Scalar.isBottom e.score = false → ∀ r ∈ e.children, r.head? ≠ none) :
    Single edges (start edges) := by
  obtain ⟨_, hperm, hseen⟩ := start_spec edges
  refine ⟨fun c hc => ?_, ?_, fun c hc => (hseen c.key).mpr ⟨c, hperm.mem_iff.mp hc, rfl⟩⟩
  · obtain ⟨e, i, he, hfirst⟩ := mem_firstsOf.mp (hperm.mem_iff.mp hc)
    exact located_of_first? he (hchildren e (List.mem_of_getElem? he)) hfirst
  · rw [(hperm.map Candidate.key).nodup_iff]
    -- the first place of a key is the edge, and every edge has one first candidate
    refine List.Nodup.of_map List.head? ?_
    rw [List.map_map]
    have hedges := (nodup_edge_firstsOf edges).map (Option.some_injective _)
    rwa [List.map_map] at hedges

theorem Single.exists_taken (k : Nat) : ∀ {f : Frontier α}, Single edges f →
    ∃ cs : List (Candidate α), (ranking edges.toArray k f).toList = cs.map Candidate.parse ∧
      (cs.map Candidate.key).Nodup ∧ ∀ c ∈ cs, c.Located edges ∧ f.Open c.key := by
  induction k with
  | zero => exact fun _ => ⟨[], by simp [ranking, Ranking.toList], List.nodup_nil, by simp⟩
  | succ k ih =>
    intro f h
    rw [ranking]
    cases hp : f.waiting.pop? before with
    | none => exact ⟨[], by simp [Ranking.toList], List.nodup_nil, by simp⟩
    | some popped =>
      obtain ⟨w, rest⟩ := popped
      obtain ⟨hlocated, hsingle, hopen, hclosed, hrest⟩ := h.pop hp
      obtain ⟨hadvance, hbefore⟩ := hsingle.advance hlocated
      obtain ⟨cs, htaken, hnodup, hcs⟩ := ih hadvance
      refine ⟨w :: cs, ?_, List.nodup_cons.mpr ⟨fun hw => ?_, hnodup⟩, ?_⟩
      · rw [Ranking.toList, List.map_cons]
        exact congrArg _ htaken
      · obtain ⟨c, hc, heq⟩ := List.mem_map.mp hw
        exact hclosed (hbefore w.key (heq ▸ (hcs c hc).2))
      · intro c hc
        rcases List.mem_cons.mp hc with rfl | hc
        · exact ⟨hlocated, hopen⟩
        · exact ⟨(hcs c hc).1, hrest _ (hbefore _ (hcs c hc).2)⟩

end Frontier

namespace FineChart

variable {edges : List (RankedEdge α)}

/-- A ranking has no derivation twice if the tree of a candidate tells its edge and its places. -/
theorem nodup_rank [Std.TransCmp (Scalar.compare : α → α → Ordering)]
    (hchildren : ∀ e ∈ edges, Scalar.isBottom e.score = false → ∀ r ∈ e.children, r.head? ≠ none)
    (hdistinct : Candidate.Distinct edges) (k : Nat) : ((rank k edges).toList.map Parse.tree).Nodup := by
  obtain ⟨cs, htaken, hkeys, hcs⟩ := (Frontier.single_start hchildren).exists_taken k
  rw [rank, htaken, List.map_map]
  refine hkeys.of_map.map_on fun c hc d hd htree => ?_
  exact List.inj_on_of_nodup_map hkeys hc hd ((hcs c hc).1.key_eq hdistinct (hcs d hd).1 htree)

variable {f : FineChart α} {m : Model α} {retain : Retain} {c : CoarseChart α} {tags : Supertags α}

section

variable (hs : Sound c m retain ((cellsOf c (spansOf c.sentence.length)).map Prod.fst) f)
  (hc : c.Saturated tags) (hg : c.grammar.Indexed) (hone : Once c f)
  (hbottom : Scalar.isBottom (Scalar.bottom : α) = true)

include hs hc hg hbottom

theorem under_of_pickedAt (k : Nat) {js : List FineId} (hjs : ∀ j ∈ js, ∃ y, f.item? j = some y) {rs : List Nat}
    {ps : List (Parse α)} (h : PickedAt (js.map fun j => (f.rankings (k + 1))[j]?.getD .nil) rs ps) :
    List.Forall₂ (fun j t => ∃ y, f.Under m j t y) js (ps.map Parse.tree) := by
  refine List.forall₂_map_right_iff.mpr
    (forall₂_imp_of_mem (List.forall₂_map_left_iff.mp h.forall₂_mem) fun j hj p hp => ?_)
  obtain ⟨_, hy⟩ := hjs j hj
  obtain ⟨r, hr, _, hunder⟩ := exists_ranking hs hc hg hbottom k j hy
  rw [hr] at hp
  exact hunder p hp

include hone

theorem rankedEdges_distinct {k : Nat} {i : FineId} {x : FineItem α} (hx : f.item? i = some x)
    (hbelow : ∀ e ∈ x.edges, ∀ child ∈ e.step.children,
      (((f.rankings (k + 1))[child]?.getD .nil).toList.map Parse.tree).Nodup) :
    Candidate.Distinct (rankedEdges (f.rankings (k + 1)) x) := by
  intro a b ea eb rs rs' ps ps' ha hb hpicks hpicks' htree
  obtain ⟨_, _, _, _, _, hmade⟩ := hs.exists_source hx
  obtain ⟨e, he, rfl⟩ := Option.map_eq_some_iff.mp ((List.getElem?_map ..).symm.trans ha)
  obtain ⟨e', he', rfl⟩ := Option.map_eq_some_iff.mp ((List.getElem?_map ..).symm.trans hb)
  have hmem := List.mem_of_getElem? he
  have hmem' := List.mem_of_getElem? he'
  have hunder := under_of_pickedAt hs hc hg hbottom k
    (fun _ hchild => (hmade.built_of_mem hmem).1.exists_child hchild) hpicks
  have hunder' := under_of_pickedAt hs hc hg hbottom k
    (fun _ hchild => (hmade.built_of_mem hmem').1.exists_child hchild) hpicks'
  obtain ⟨rfl, hsame⟩ := node_inj hs hc hg hx hmem hmem' hunder hunder' htree
  refine ⟨index_eq_of_nodup_map (hone.edges i x hx) he he' rfl, ?_⟩
  refine PickedAt.ranks_unique (fun r hr => ?_) hpicks hpicks' hsame
  obtain ⟨child, hchild, rfl⟩ := List.mem_map.mp hr
  exact hbelow e hmem child hchild

variable [Std.TransCmp (Scalar.compare : α → α → Ordering)]

theorem nodup_rankings (k : Nat) (i : FineId) : ∀ {x : FineItem α}, f.item? i = some x →
    (((f.rankings (k + 1))[i]?.getD .nil).toList.map Parse.tree).Nodup := by
  -- children have smaller numbers than their item
  induction i using Nat.strong_induction_on with
  | _ i ih =>
    intro x hx
    obtain ⟨_, _, _, _, _, hmade⟩ := hs.exists_source hx
    rw [getElem?_rankings (k + 1) hx fun e he => (hmade.built_of_mem he).2, Option.getD_some]
    refine nodup_rank (heads_rankedEdges hs hc hg hbottom k hx)
      (rankedEdges_distinct hs hc hg hone hbottom hx fun e he child hchild => ?_) (k + 1)
    obtain ⟨hbuilt, hbelow⟩ := hmade.built_of_mem he
    obtain ⟨_, hy⟩ := hbuilt.exists_child hchild
    exact ih child (hbelow child hchild) hy

variable (hwhole : c.wholeSpan.Within c.sentence.length) (hroots : f.roots = f.findRoots m)

include hroots

omit hone [Std.TransCmp (Scalar.compare : α → α → Ordering)] in
theorem exists_root_ranking (k : Nat) {r : Root α} (hr : r ∈ f.roots) : ∃ x ranking, f.item? r.item = some x ∧
    (f.rankings (k + 1))[r.item]? = some ranking ∧ ranking.head? ≠ none ∧
      ∀ p ∈ ranking.toList, ∃ y, f.Under m r.item p.tree y := by
  obtain ⟨_, _, x, _, _, hx, _, hscore, hpossible⟩ := hs.root_of_mem hroots hr
  obtain ⟨ranking, hget, hhead, hunder⟩ := exists_ranking hs hc hg hbottom k r.item hx.1
  exact ⟨x, ranking, hx.1, hget, hhead (not_isBottom_of_both hbottom (hscore ▸ hpossible)).2, hunder⟩

include hwhole

theorem rootEdges_distinct (k : Nat) : Candidate.Distinct (f.rootEdges (f.rankings (k + 1))) := by
  intro a b ea eb rs rs' ps ps' ha hb hpicks hpicks' htree
  obtain ⟨r, hr, rfl⟩ := Option.map_eq_some_iff.mp ((List.getElem?_map ..).symm.trans ha)
  obtain ⟨r', hr', rfl⟩ := Option.map_eq_some_iff.mp ((List.getElem?_map ..).symm.trans hb)
  obtain ⟨x, ranking, hx, hget, _, hunder⟩ :=
    exists_root_ranking hs hc hg hbottom hroots k (List.mem_of_getElem? hr)
  obtain ⟨_, ranking', _, hget', _, hunder'⟩ :=
    exists_root_ranking hs hc hg hbottom hroots k (List.mem_of_getElem? hr')
  rw [hget, Option.getD_some] at hpicks
  rw [hget', Option.getD_some] at hpicks'
  obtain ⟨_, p, rfl, rfl, hp⟩ := pickedAt_singleton.mp hpicks
  obtain ⟨_, p', rfl, rfl, hp'⟩ := pickedAt_singleton.mp hpicks'
  have htree : p.tree = p'.tree := htree
  obtain ⟨_, hbelow⟩ := hunder p (List.mem_of_getElem? hp)
  obtain ⟨_, hbelow'⟩ := hunder' p' (List.mem_of_getElem? hp')
  have hitem : r.item = r'.item := (under_unique hs hc hg hbelow (htree ▸ hbelow')).1
  refine ⟨index_eq_of_nodup_map (hone.nodup_roots hc hwhole hroots) hr hr' hitem, ?_⟩
  have hsame : ranking' = ranking := Option.some.inj (hget'.symm.trans (hitem ▸ hget))
  have hnodup := nodup_rankings hs hc hg hone hbottom k r.item hx
  rw [hget, Option.getD_some] at hnodup
  exact congrArg (fun k => [k]) (index_eq_of_nodup_map hnodup hp (hsame ▸ hp') htree)

theorem nodup_kBest (k : Nat) : ((f.kBest k).map Parse.tree).Nodup := by
  cases k with
  | zero => simp [kBest, Ranking.take_eq]
  | succ k =>
    rw [kBest, Ranking.take_eq, List.map_take]
    refine (List.take_sublist _ _).nodup
      (nodup_rank ?_ (rootEdges_distinct hs hc hg hone hbottom hwhole hroots k) (k + 1))
    intro e he _ ranking hranking
    obtain ⟨r, hr, rfl⟩ := List.mem_map.mp he
    obtain ⟨_, _, _, hget, hhead, _⟩ := exists_root_ranking hs hc hg hbottom hroots k hr
    rw [List.mem_singleton.mp hranking, hget]
    exact hhead

end

end FineChart

end Categorial
