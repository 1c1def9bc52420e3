import Categorial.Proofs.KBest.Order
import Mathlib.Logic.Function.Iterate
set_option autoImplicit false

namespace Categorial

namespace Candidate

def bumps : List Nat → List (List Nat)
  | [] => []
  | r :: rs => ((r + 1) :: rs) :: (bumps rs).map fun rs => r :: rs

def placed {β : Type} (children : List (Ranking β)) (ranks : List Nat) : List (Ranking β) :=
  List.zipWith (fun r c => Nat.iterate Ranking.tail r c) ranks children

theorem successors_eq {β : Type} {ranks : List Nat} : ∀ {children : List (Ranking β)},
    ranks.length = children.length →
    successors ranks (placed children ranks) = (bumps ranks).map fun rs => (rs, placed children rs) := by
  induction ranks with
  | nil => exact fun _ => rfl
  | cons r rs ih =>
    intro children h
    cases children with
    | nil => cases h
    | cons c cs =>
      have hlen : rs.length = cs.length := Nat.succ.inj h
      have hstep : Ranking.tail (Nat.iterate Ranking.tail r c) = Nat.iterate Ranking.tail (r + 1) c :=
        (Function.iterate_succ_apply' _ _ _).symm
      simp only [placed, List.zipWith_cons_cons, successors, bumps, hstep, List.map_cons, List.map_map]
      refine congrArg _ ?_
      have ih := ih hlen
      unfold placed at ih
      rw [ih, List.map_map]
      rfl

theorem length_of_mem_bumps {ranks rs : List Nat} (h : rs ∈ bumps ranks) :
    rs.length = ranks.length := by
  induction ranks generalizing rs with
  | nil => simp [bumps] at h
  | cons r ranks ih =>
    rcases List.mem_cons.mp h with rfl | h
    · rfl
    · obtain ⟨rs, hrs, rfl⟩ := List.mem_map.mp h
      simp [ih hrs]

variable {α : Type} [Scalar α]

/-- The candidate is the one of its edge at its places. -/
structure Valid (edges : List (RankedEdge α)) (c : Candidate α) (e : RankedEdge α) : Prop where
  edge : edges[c.edge]? = some e
  length : c.ranks.length = e.children.length
  made : e.candidate? c.edge c.ranks (placed e.children c.ranks) = some c

variable {edges : List (RankedEdge α)} {c d : Candidate α} {e e' : RankedEdge α}

theorem Valid.eq_of_key (hc : c.Valid edges e) (hd : d.Valid edges e') (h : c.key = d.key) : c = d := by
  obtain ⟨hedge, hranks⟩ := List.cons.inj h
  have he := hc.edge
  rw [hedge, hd.edge] at he
  cases he
  have hmade := hc.made
  rw [hedge, hranks, hd.made] at hmade
  exact (Option.some.inj hmade).symm

theorem candidate?_fields {i : Nat} {ranks : List Nat} {children : List (Ranking (Parse α))}
    (h : e.candidate? i ranks children = some c) :
    c.edge = i ∧ c.ranks = ranks ∧ c.children = children := by
  unfold RankedEdge.candidate? at h
  obtain ⟨picked, _, h⟩ := Option.bind_eq_some_iff.mp h
  simp only at h
  split at h
  · cases h
  · cases h
    exact ⟨rfl, rfl, rfl⟩

end Candidate

namespace Frontier

open Candidate

variable {α : Type} [Scalar α] {edges : List (RankedEdge α)} {left : List (Candidate α)}
  {f : Frontier α}

theorem advance_eq {c : Candidate α} {e : RankedEdge α} (he : edges[c.edge]? = some e)
    (hchildren : c.children = placed e.children c.ranks) (hlen : c.ranks.length = e.children.length)
    (f : Frontier α) : Frontier.advance edges.toArray f c =
      ((bumps c.ranks).map fun rs => (rs, placed e.children rs)).foldl (Frontier.offer c.edge e) f := by
  unfold Frontier.advance
  rw [List.getElem?_toArray, he, hchildren]
  simp only [successors_eq hlen]

omit [Scalar α] in
theorem mem_seen_insert {k key : List Nat} : key ∈ f.seen.insert k ↔ key = k ∨ key ∈ f.seen := by
  rw [Std.TreeSet.mem_insert, Std.LawfulEqOrd.compare_eq_iff_eq, eq_comm]

/-- What holds of a frontier when the candidates `left` have not been taken: they are in order, those
that wait are among them, and those seen are the ones that wait and the ones taken. -/
structure Ready (edges : List (RankedEdge α)) (left : List (Candidate α)) (f : Frontier α) : Prop where
  sorted : left.Pairwise fun a b => before a b = true
  valid : ∀ c ∈ left, ∃ e, c.Valid edges e
  ordered : f.waiting.Ordered before
  nodup : f.waiting.toList.Nodup
  waiting : ∀ c ∈ f.waiting.toList, c ∈ left
  seen_iff : ∀ c ∈ left, c.key ∈ f.seen ↔ c ∈ f.waiting.toList
  unseen : ∀ c e, c.Valid edges e → c.key ∉ f.seen → c ∈ left

/-- What is left waits or follows on something left before it. -/
def Fed (left : List (Candidate α)) (f : Frontier α) : Prop :=
  ∀ c ∈ left, c ∈ f.waiting.toList ∨
    ∃ u ∈ left, before u c = true ∧ c.edge = u.edge ∧ c.ranks ∈ bumps u.ranks

variable [Std.TransCmp (Scalar.compare : α → α → Ordering)]

theorem Ready.offer (h : Ready edges left f) {i : Nat} {e : RankedEdge α} (he : edges[i]? = some e)
    {ranks : List Nat} (hlen : ranks.length = e.children.length) :
    Ready edges left (offer i e f (ranks, placed e.children ranks)) ∧
      (∀ c ∈ f.waiting.toList, c ∈ (offer i e f (ranks, placed e.children ranks)).waiting.toList) ∧
      (∀ key ∈ f.seen, key ∈ (offer i e f (ranks, placed e.children ranks)).seen) ∧
      i :: ranks ∈ (offer i e f (ranks, placed e.children ranks)).seen := by
  unfold Frontier.offer
  by_cases hseen : i :: ranks ∈ f.seen
  · rw [if_pos (Std.TreeSet.mem_iff_contains.mp hseen)]
    exact ⟨h, fun _ hc => hc, fun _ hk => hk, hseen⟩
  · rw [if_neg fun hc => hseen (Std.TreeSet.mem_iff_contains.mpr hc)]
    cases hmade : e.candidate? i ranks (placed e.children ranks) with
    | none =>
      refine ⟨⟨h.sorted, h.valid, h.ordered, h.nodup, h.waiting, fun c hc => ?_, fun c e' hv hk => ?_⟩,
        fun _ hc => hc, fun key hk => mem_seen_insert.mpr (.inr hk), mem_seen_insert.mpr (.inl rfl)⟩
      · rw [mem_seen_insert, h.seen_iff c hc, or_iff_right_iff_imp]
        intro hkey
        obtain ⟨e', hv⟩ := h.valid c hc
        obtain ⟨hedge, hranks⟩ := List.cons.inj hkey
        have hedges := hv.edge
        rw [hedge, he] at hedges
        cases hedges
        have hc' := hv.made
        rw [hedge, hranks, hmade] at hc'
        cases hc'
      · exact h.unseen c e' hv fun hk' => hk (mem_seen_insert.mpr (.inr hk'))
    | some new =>
      obtain ⟨hedge, hranks, _⟩ := candidate?_fields hmade
      have hkey : new.key = i :: ranks := by rw [key, hedge, hranks]
      have hnew : new.Valid edges e := ⟨hedge ▸ he, hranks ▸ hlen, hedge.symm ▸ hranks.symm ▸ hmade⟩
      have hleft : new ∈ left := h.unseen new e hnew (hkey ▸ hseen)
      have hnot : new ∉ f.waiting.toList := fun hw =>
        hseen (hkey ▸ (h.seen_iff new hleft).mpr hw)
      have hperm := Heap.toList_push before f.waiting new
      have hmem : ∀ c, c ∈ (f.waiting.push before new).toList ↔ c = new ∨ c ∈ f.waiting.toList :=
        fun c => by rw [hperm.mem_iff, List.mem_cons]
      refine ⟨⟨h.sorted, h.valid, Heap.ordered_push strictWeak h.ordered new,
        hperm.nodup_iff.mpr (List.nodup_cons.mpr ⟨hnot, h.nodup⟩), fun c hc => ?_, fun c hc => ?_,
        fun c e' hv hk => ?_⟩, fun c hc => (hmem c).mpr (.inr hc),
        fun key hk => mem_seen_insert.mpr (.inr hk), mem_seen_insert.mpr (.inl rfl)⟩
      · rcases (hmem c).mp hc with rfl | hc
        · exact hleft
        · exact h.waiting c hc
      · rw [mem_seen_insert, hmem, h.seen_iff c hc, ← hkey]
        refine or_congr ⟨fun hk => ?_, congrArg key⟩ Iff.rfl
        obtain ⟨_, hv⟩ := h.valid c hc
        exact hv.eq_of_key hnew hk
      · exact h.unseen c e' hv fun hk' => hk (mem_seen_insert.mpr (.inr hk'))

theorem Ready.foldl_offer {i : Nat} {e : RankedEdge α} (he : edges[i]? = some e)
    {places : List (List Nat)} : ∀ {f : Frontier α}, Ready edges left f →
      (∀ rs ∈ places, rs.length = e.children.length) →
      Ready edges left ((places.map fun rs => (rs, placed e.children rs)).foldl (Frontier.offer i e) f) ∧
        (∀ c ∈ f.waiting.toList, c ∈
          ((places.map fun rs => (rs, placed e.children rs)).foldl
            (Frontier.offer i e) f).waiting.toList) ∧
        (∀ key ∈ f.seen, key ∈
          ((places.map fun rs => (rs, placed e.children rs)).foldl (Frontier.offer i e) f).seen) ∧
        ∀ rs ∈ places, i :: rs ∈
          ((places.map fun rs => (rs, placed e.children rs)).foldl (Frontier.offer i e) f).seen := by
  induction places with
  | nil => exact fun h _ => ⟨h, fun _ hc => hc, fun _ hk => hk, fun _ hrs => absurd hrs List.not_mem_nil⟩
  | cons first places ih =>
    intro f h hlen
    obtain ⟨h', hwaiting, hseen, hfirst⟩ := h.offer he (hlen first (by simp))
    obtain ⟨h'', hwaiting', hseen', hplaces⟩ := ih h' fun rs hrs => hlen rs (by simp [hrs])
    refine ⟨h'', fun c hc => hwaiting' c (hwaiting c hc), fun key hk => hseen' key (hseen key hk), ?_⟩
    intro rs hrs
    rcases List.mem_cons.mp hrs with rfl | hrs
    · exact hseen' _ hfirst
    · exact hplaces rs hrs

omit [Std.TransCmp (Scalar.compare : α → α → Ordering)] in
theorem Ready.pop {w : Candidate α} {rest : Heap (Candidate α)} (h : Ready edges (w :: left) f)
    (hsw : StrictWeak (before : Candidate α → Candidate α → Bool))
    (hp : f.waiting.pop? before = some (w, rest)) :
    Ready edges left { f with waiting := rest } ∧ w.key ∈ f.seen := by
  obtain ⟨hw, hsorted⟩ := List.pairwise_cons.mp h.sorted
  have hperm := Heap.toList_pop? hp
  obtain ⟨hnot, hnodup⟩ := List.nodup_cons.mp (hperm.nodup_iff.mp h.nodup)
  have hne : ∀ c ∈ left, c ≠ w := by
    rintro c hc rfl
    have hself := hw c hc
    simp [hsw.asymm c c hself] at hself
  have hkey : w.key ∈ f.seen :=
    (h.seen_iff w (by simp)).mpr (hperm.mem_iff.mpr List.mem_cons_self)
  refine ⟨⟨hsorted, fun c hc => h.valid c (by simp [hc]), (Heap.ordered_pop? hsw h.ordered hp).1,
    hnodup, fun c hc => ?_, fun c hc => ?_, fun c e hv hk => ?_⟩, hkey⟩
  · have hmem := h.waiting c (hperm.mem_iff.mpr (List.mem_cons_of_mem _ hc))
    rcases List.mem_cons.mp hmem with rfl | hmem
    · exact absurd hc hnot
    · exact hmem
  · rw [h.seen_iff c (by simp [hc]), hperm.mem_iff, List.mem_cons, or_iff_right (hne c hc)]
  · rcases List.mem_cons.mp (h.unseen c e hv hk) with rfl | hmem
    · exact absurd hkey hk
    · exact hmem

theorem Ready.pop?_eq {w : Candidate α} (h : Ready edges (w :: left) f) (hfed : Fed (w :: left) f) :
    ∃ rest, f.waiting.pop? before = some (w, rest) := by
  have hsw : StrictWeak (before : Candidate α → Candidate α → Bool) := strictWeak
  obtain ⟨hw, _⟩ := List.pairwise_cons.mp h.sorted
  have hself : before w w = false := by
    cases hww : before w w with
    | false => rfl
    | true => exact hww ▸ hsw.asymm w w hww
  -- nothing that is left stands before `w`, so it follows on nothing
  have hwaits : w ∈ f.waiting.toList := by
    rcases hfed w (by simp) with hmem | ⟨u, hu, hbefore, _⟩
    · exact hmem
    · rcases List.mem_cons.mp hu with rfl | hu
      · simp [hself] at hbefore
      · simp [hsw.asymm _ _ (hw u hu)] at hbefore
  cases hp : f.waiting.pop? before with
  | none => simp [Heap.pop?_eq_none.mp hp] at hwaits
  | some entry =>
    obtain ⟨x, rest⟩ := entry
    obtain ⟨_, hleast⟩ := Heap.ordered_pop? hsw h.ordered hp
    have hperm := Heap.toList_pop? hp
    have hx := h.waiting x (hperm.mem_iff.mpr List.mem_cons_self)
    rcases List.mem_cons.mp hx with rfl | hx
    · exact ⟨rest, rfl⟩
    · rcases List.mem_cons.mp (hperm.mem_iff.mp hwaits) with rfl | hrest
      · exact ⟨rest, rfl⟩
      · have hbefore := hw x hx
        simp [hleast w hrest] at hbefore

theorem Ready.advance {w : Candidate α} {rest : Heap (Candidate α)} (h : Ready edges (w :: left) f)
    (hfed : Fed (w :: left) f) (hp : f.waiting.pop? before = some (w, rest)) :
    Ready edges left (advance edges.toArray { f with waiting := rest } w) ∧
      Fed left (advance edges.toArray { f with waiting := rest } w) := by
  obtain ⟨hready, hkey⟩ := h.pop strictWeak hp
  obtain ⟨e, hvalid⟩ := h.valid w (by simp)
  have hperm := Heap.toList_pop? hp
  rw [advance_eq hvalid.edge (candidate?_fields hvalid.made).2.2 hvalid.length]
  have hlen : ∀ rs ∈ bumps w.ranks, rs.length = e.children.length := fun rs hrs =>
    (length_of_mem_bumps hrs).trans hvalid.length
  obtain ⟨h', hwaiting, _, hbumps⟩ := hready.foldl_offer hvalid.edge hlen
  -- what followed on `w` has been offered, anything else still waits or follows on the same as before
  refine ⟨h', fun c hc => ?_⟩
  rcases hfed c (by simp [hc]) with hmem | ⟨u, hu, hbefore, hedge, hranks⟩
  · refine .inl (hwaiting c ?_)
    rcases List.mem_cons.mp (hperm.mem_iff.mp hmem) with rfl | hmem
    · have hself := (List.pairwise_cons.mp h.sorted).1 c hc
      simp [strictWeak.asymm c c hself] at hself
    · exact hmem
  · rcases List.mem_cons.mp hu with rfl | hu
    · refine .inl ((h'.seen_iff c hc).mp ?_)
      rw [key, hedge]
      exact hbumps c.ranks hranks
    · exact .inr ⟨u, hu, hbefore, hedge, hranks⟩

theorem Ready.ranking_eq (k : Nat) : ∀ {left : List (Candidate α)} {f : Frontier α},
    Ready edges left f → Fed left f →
    (ranking edges.toArray k f).toList = (left.take k).map Candidate.parse := by
  induction k with
  | zero => exact fun _ _ => by simp [ranking, Ranking.toList]
  | succ k ih =>
    intro left f h hfed
    cases left with
    | nil =>
      have hnone : f.waiting.pop? before = none := by
        rw [Heap.pop?_eq_none, List.eq_nil_iff_forall_not_mem]
        exact fun c hc => List.not_mem_nil (h.waiting c hc)
      simp [ranking, hnone, Ranking.toList]
    | cons w left =>
      obtain ⟨rest, hp⟩ := h.pop?_eq hfed
      obtain ⟨h', hfed'⟩ := h.advance hfed hp
      simp only [ranking, hp, Ranking.toList, List.take_succ_cons, List.map_cons]
      exact congrArg _ (ih h' hfed')

end Frontier

end Categorial
