import Categorial.Proofs.Fine.Trees
import Categorial.Proofs.KBest.First
set_option autoImplicit false

namespace Categorial

theorem Ranking.mem_of_head? {β : Type} {r : Ranking β} {x : β} (h : r.head? = some x) : x ∈ r.toList := by
  rw [← Ranking.head?_toList] at h
  exact List.mem_of_head? h

variable {α : Type} [Scalar α]

/-- The edge makes this derivation of entries of its children's rankings. -/
def RankedEdge.Makes {α : Type} (e : RankedEdge α) (t : Derivation) : Prop :=
  ∃ picked : List (Parse α), List.Forall₂ (fun r p => p ∈ r.toList) e.children picked ∧
    t = e.node (picked.map Parse.tree)

namespace Candidate

theorem left_of_mem_successors {β : Type} {ranks : List Nat} : ∀ {children : List (Ranking β)}
    {place : List Nat × List (Ranking β)}, place ∈ successors ranks children →
    List.Forall₂ (fun r r' => r'.toList ⊆ r.toList) children place.2 := by
  induction ranks with
  | nil =>
    intro children place h
    simp [successors] at h
  | cons rank ranks ih =>
    intro children place h
    cases children with
    | nil => simp [successors] at h
    | cons r rs =>
      rcases List.mem_cons.mp h with rfl | h
      · refine .cons ?_ (List.forall₂_same.mpr fun _ _ => List.Subset.refl _)
        rw [← Ranking.tail_toList]
        exact List.tail_subset _
      · obtain ⟨place, hplace, rfl⟩ := List.mem_map.mp h
        exact .cons (List.Subset.refl _) (ih hplace)

/-- The edge of the candidate makes its derivation, and the candidate carries no other entries than those of
the edge's rankings. -/
def Drawn {α : Type} (edges : List (RankedEdge α)) (c : Candidate α) : Prop :=
  ∃ e, edges[c.edge]? = some e ∧ e.Makes c.parse.tree ∧
    List.Forall₂ (fun r r' => r'.toList ⊆ r.toList) e.children c.children

variable {edges : List (RankedEdge α)}

theorem drawn_of_candidate? {i : Nat} {e : RankedEdge α} {ranks : List Nat}
    {children : List (Ranking (Parse α))} {c : Candidate α} (he : edges[i]? = some e)
    (hleft : List.Forall₂ (fun r r' => r'.toList ⊆ r.toList) e.children children)
    (h : e.candidate? i ranks children = some c) : c.Drawn edges := by
  obtain ⟨picked, hpicked, h⟩ := Option.bind_eq_some_iff.mp h
  simp only at h
  split at h
  · cases h
  · cases h
    have hpicks := forall₂_comp (T := fun r p => p ∈ r.toList)
      (fun r r' p hsub hp => hsub (Ranking.mem_of_head? hp)) hleft (forall₂_of_mapM hpicked)
    exact ⟨e, he, ⟨picked, hpicks, rfl⟩, hleft⟩

theorem drawn_of_first? {i : Nat} {e : RankedEdge α} {c : Candidate α} (he : edges[i]? = some e)
    (hchildren : Scalar.isBottom e.score = false → ∀ r ∈ e.children, r.head? ≠ none)
    (h : e.first? i = some c) : c.Drawn edges := by
  obtain ⟨hbottom, rfl⟩ := first?_eq_some.mp h
  have hheads := forall₂_filterMap (hchildren hbottom)
  exact ⟨e, he, ⟨_, hheads.imp fun _ _ => Ranking.mem_of_head?, rfl⟩,
    List.forall₂_same.mpr fun _ _ => List.Subset.refl _⟩

end Candidate

namespace Frontier

open Candidate

variable {edges : List (RankedEdge α)}

omit [Scalar α] in
theorem mem_foldl_push (before : Candidate α → Candidate α → Bool) (cs : List (Candidate α)) :
    ∀ {h : Heap (Candidate α)} {c : Candidate α}, c ∈ (cs.foldl (Heap.push before) h).toList ↔
      c ∈ cs ∨ c ∈ h.toList := by
  induction cs with
  | nil => simp
  | cons d cs ih =>
    intro h c
    rw [List.foldl_cons, ih, (Heap.toList_push before h d).mem_iff]
    simp only [List.mem_cons]
    tauto

theorem mem_start {c : Candidate α} : c ∈ (start edges).waiting.toList ↔ c ∈ firstsOf edges := by
  have hempty : c ∈ (Heap.empty : Heap (Candidate α)).toList ↔ False := by simp [Heap.toList]
  unfold start firstsOf
  rw [mem_foldl_push, hempty, or_false]

def Clean (edges : List (RankedEdge α)) (f : Frontier α) : Prop :=
  ∀ c ∈ f.waiting.toList, c.Drawn edges

theorem clean_start
    (hchildren : ∀ e ∈ edges, Scalar.isBottom e.score = false → ∀ r ∈ e.children, r.head? ≠ none) :
    Clean edges (start edges) := by
  intro c hc
  obtain ⟨e, i, he, hfirst⟩ := mem_firstsOf.mp (mem_start.mp hc)
  exact drawn_of_first? he (hchildren e (List.mem_of_getElem? he)) hfirst

theorem Clean.offer {f : Frontier α} (hf : Clean edges f) {i : Nat} {e : RankedEdge α}
    (he : edges[i]? = some e) {place : List Nat × List (Ranking (Parse α))}
    (hplace : List.Forall₂ (fun r r' => r'.toList ⊆ r.toList) e.children place.2) :
    Clean edges (offer i e f place) := by
  unfold Frontier.offer
  split
  · exact hf
  · intro c hc
    simp only at hc
    split at hc
    · rename_i d hd
      rcases List.mem_cons.mp ((Heap.toList_push before f.waiting d).mem_iff.mp hc) with rfl | hc
      · exact drawn_of_candidate? he hplace hd
      · exact hf c hc
    · exact hf c hc

theorem Clean.advance {f : Frontier α} (hf : Clean edges f) {c : Candidate α} (hc : c.Drawn edges) :
    Clean edges (advance edges.toArray f c) := by
  obtain ⟨e, he, _, hleft⟩ := hc
  have hplaces : ∀ place ∈ successors c.ranks c.children,
      List.Forall₂ (fun r r' => r'.toList ⊆ r.toList) e.children place.2 := by
    intro place hplace
    exact forall₂_comp (fun _ _ _ hsub hsub' _ hp => hsub (hsub' hp)) hleft
      (left_of_mem_successors hplace)
  unfold Frontier.advance
  rw [List.getElem?_toArray, he]
  simp only
  generalize successors c.ranks c.children = places at hplaces
  induction places generalizing f with
  | nil => exact hf
  | cons place places ih =>
    exact ih (hf.offer he (hplaces place (by simp))) fun p hp => hplaces p (by simp [hp])

theorem Clean.makes (k : Nat) : ∀ {f : Frontier α}, Clean edges f →
    ∀ p ∈ (ranking edges.toArray k f).toList, ∃ e ∈ edges, e.Makes p.tree := by
  induction k with
  | zero => simp [ranking, Ranking.toList]
  | succ k ih =>
    intro f hf p hp
    rw [ranking] at hp
    split at hp
    · simp [Ranking.toList] at hp
    · rename_i c rest hpop
      have hperm := Heap.toList_pop? hpop
      have hdrawn : c.Drawn edges := hf c (hperm.mem_iff.mpr List.mem_cons_self)
      have hrest : Clean edges ⟨rest, f.seen⟩ := fun d hd =>
        hf d (hperm.mem_iff.mpr (List.mem_cons_of_mem _ hd))
      rw [Ranking.toList] at hp
      rcases List.mem_cons.mp hp with rfl | hp
      · obtain ⟨e, he, hmakes, _⟩ := hdrawn
        exact ⟨e, List.mem_of_getElem? he, hmakes⟩
      · exact ih (hrest.advance hdrawn) p hp

end Frontier

namespace FineChart

theorem makes_of_mem_rank {edges : List (RankedEdge α)} {k : Nat}
    (hchildren : ∀ e ∈ edges, Scalar.isBottom e.score = false → ∀ r ∈ e.children, r.head? ≠ none)
    {p : Parse α} (hp : p ∈ (rank k edges).toList) : ∃ e ∈ edges, e.Makes p.tree :=
  (Frontier.clean_start hchildren).makes k p hp

theorem head?_rank_ne_none {edges : List (RankedEdge α)} (k : Nat) {e : RankedEdge α} (he : e ∈ edges)
    (hbottom : Scalar.isBottom e.score = false) : (rank (k + 1) edges).head? ≠ none := by
  obtain ⟨i, hi⟩ := List.mem_iff_getElem?.mp he
  have hwaits := Frontier.mem_start.mpr
    (Frontier.mem_firstsOf.mpr ⟨e, i, hi, first?_eq_some.mpr ⟨hbottom, rfl⟩⟩)
  rw [rank, Frontier.ranking]
  cases hpop : (Frontier.start edges).waiting.pop? Candidate.before with
  | none =>
    rw [Heap.pop?_eq_none.mp hpop] at hwaits
    cases hwaits
  | some popped => simp [Ranking.head?]

variable {f : FineChart α} {m : Model α} {retain : Retain} {c : CoarseChart α} {tags : Supertags α}

omit [Scalar α] in
theorem exists_scored {R : FineId → Derivation → α → Prop} {js : List FineId} {ts : List Derivation}
    (h : List.Forall₂ (fun j t => ∃ y, R j t y) js ts) : ∃ picked : List (Parse α),
      picked.map Parse.tree = ts ∧ List.Forall₂ (fun j p => R j p.tree p.score) js picked := by
  induction h with
  | nil => exact ⟨[], rfl, .nil⟩
  | @cons _ t _ _ hy _ ih =>
    obtain ⟨y, hy⟩ := hy
    obtain ⟨picked, rfl, hpicked⟩ := ih
    exact ⟨⟨t, y⟩ :: picked, rfl, .cons hy hpicked⟩

section

variable (hs : Sound c m retain ((cellsOf c (spansOf c.sentence.length)).map Prod.fst) f)
  (hc : c.Saturated tags) (hg : c.grammar.Indexed)
  (hbottom : Scalar.isBottom (Scalar.bottom : α) = true)

include hs hc hg hbottom

/-- Every entry of an item's ranking is a derivation under the item, and an item that is not impossible has
an entry. -/
theorem exists_ranking (k : Nat) (i : FineId) : ∀ {x : FineItem α}, f.item? i = some x →
    ∃ r, (f.rankings (k + 1))[i]? = some r ∧ (Scalar.isBottom x.score = false → r.head? ≠ none) ∧
      ∀ p ∈ r.toList, ∃ y, f.Under m i p.tree y := by
  -- children have smaller numbers than their item
  induction i using Nat.strong_induction_on with
  | _ i ih =>
    intro x hx
    obtain ⟨_, _, _, _, _, hmade⟩ := hs.exists_source hx
    have hchild : ∀ {e : FineEdge α}, e ∈ x.edges → ∀ child ∈ e.step.children, ∃ y r,
        f.item? child = some y ∧ (f.rankings (k + 1))[child]? = some r ∧
          (Scalar.isBottom y.score = false → r.head? ≠ none) ∧
          ∀ p ∈ r.toList, ∃ y, f.Under m child p.tree y := by
      intro e he child hchild
      obtain ⟨hbuilt, hbelow⟩ := hmade.built_of_mem he
      obtain ⟨y, hy⟩ := hbuilt.exists_child hchild
      obtain ⟨r, hr⟩ := ih child (hbelow child hchild) hy
      exact ⟨y, r, hy, hr⟩
    have hheads : ∀ e' ∈ rankedEdges (f.rankings (k + 1)) x, Scalar.isBottom e'.score = false →
        ∀ r ∈ e'.children, r.head? ≠ none := by
      intro e' he' hpossible r hr
      obtain ⟨e, he, rfl⟩ := List.mem_map.mp he'
      obtain ⟨child, hmem, rfl⟩ := List.mem_map.mp hr
      obtain ⟨y, hy, hpossible'⟩ := (hmade.built_of_mem he).1.possible_child hbottom hpossible hmem
      obtain ⟨y', r, hy', hr, hhead, _⟩ := hchild he child hmem
      cases hy.symm.trans hy'
      rw [hr]
      exact hhead hpossible'
    refine ⟨_, getElem?_rankings (k + 1) hx fun e he => (hmade.built_of_mem he).2, fun hpossible => ?_,
      fun p hp => ?_⟩
    · obtain ⟨e, rest, hedges, hscore⟩ := hmade.exists_first
      exact head?_rank_ne_none k (List.mem_map.mpr ⟨e, by simp [hedges], rfl⟩) (hscore ▸ hpossible)
    · obtain ⟨e', he', picked, hpicked, htree⟩ := makes_of_mem_rank hheads hp
      obtain ⟨e, he, rfl⟩ := List.mem_map.mp he'
      have hunder : List.Forall₂ (fun child t => ∃ y, f.Under m child t y) e.step.children
          (picked.map Parse.tree) := by
        refine List.forall₂_map_right_iff.mpr
          (forall₂_imp_of_mem (List.forall₂_map_left_iff.mp hpicked) fun child hmem q hq => ?_)
        obtain ⟨_, r, _, hr, _, hall⟩ := hchild he child hmem
        rw [hr] at hq
        exact hall q hq
      obtain ⟨scored, hmap, hscored⟩ := exists_scored hunder
      rw [htree, ← hmap]
      exact ⟨_, under_node hs hc hg hx he hscored⟩

theorem heads_rankedEdges (k : Nat) {i : FineId} {x : FineItem α} (hx : f.item? i = some x) :
    ∀ e ∈ rankedEdges (f.rankings (k + 1)) x, Scalar.isBottom e.score = false →
      ∀ r ∈ e.children, r.head? ≠ none := by
  intro e' he' hpossible r hr
  obtain ⟨e, he, rfl⟩ := List.mem_map.mp he'
  obtain ⟨child, hmem, rfl⟩ := List.mem_map.mp hr
  obtain ⟨_, _, _, _, _, hmade⟩ := hs.exists_source hx
  obtain ⟨y, hy, hpossible'⟩ := (hmade.built_of_mem he).1.possible_child hbottom hpossible hmem
  obtain ⟨r, hr, hhead, _⟩ := exists_ranking hs hc hg hbottom k child hy
  rw [hr]
  exact hhead hpossible'

end

end FineChart

end Categorial
