import Categorial.Proofs.KBest.Picks
import Categorial.Proofs.Lists
set_option autoImplicit false

namespace Categorial

namespace RankedEdge

variable {α : Type}

def origin (e : RankedEdge α) : List Nat := e.children.map fun _ => 0

theorem placed_origin (children : List (Ranking (Parse α))) :
    Candidate.placed children (children.map fun _ => 0) = children := by
  induction children with
  | nil => rfl
  | cons c cs ih =>
    rw [List.map_cons, Candidate.placed, List.zipWith_cons_cons]
    exact congrArg _ ih

theorem filterMap_of_mapM_head? : ∀ {children : List (Ranking (Parse α))} {picked : List (Parse α)},
    children.mapM Ranking.head? = some picked → children.filterMap Ranking.head? = picked := by
  intro children
  induction children with
  | nil =>
    intro picked h
    cases h
    rfl
  | cons c cs ih =>
    intro picked h
    rw [List.mapM_cons, Option.bind_eq_bind] at h
    obtain ⟨p, hp, h⟩ := Option.bind_eq_some_iff.mp h
    obtain ⟨ps, hps, h⟩ := Option.bind_eq_some_iff.mp h
    cases h
    simp [hp, ih hps]

theorem Sound.first?_eq {e : RankedEdge EReal} (he : e.Sound) (i : Nat) :
    e.first? i = e.candidate? i e.origin (Candidate.placed e.children e.origin) := by
  have hscore := he.score_eq
  unfold origin
  rw [placed_origin, first?, candidate?]
  cases hpicked : e.children.mapM Ranking.head? with
  | none =>
    rw [hpicked] at hscore
    simp [hscore]
  | some picked =>
    rw [hpicked] at hscore
    simp only [Option.elim_some] at hscore
    simp only [Option.bind_eq_bind, Option.bind_some, foldl_both, ← hscore,
      filterMap_of_mapM_head? hpicked]

end RankedEdge

namespace Frontier

open Candidate

section

variable {α : Type} [Scalar α] {edges : List (RankedEdge α)} {c : Candidate α}

def candidatesOf (edges : List (RankedEdge α)) : List (Candidate α) :=
  edges.zipIdx.flatMap fun (e, i) =>
    (places e.children).filterMap fun rs => e.candidate? i rs (placed e.children rs)

theorem mem_candidatesOf : c ∈ candidatesOf edges ↔ ∃ e, c.Valid edges e := by
  constructor
  · intro h
    obtain ⟨⟨e, i⟩, hi, hc⟩ := List.mem_flatMap.mp h
    obtain ⟨rs, hrs, hmade⟩ := List.mem_filterMap.mp hc
    obtain ⟨hedge, hranks, _⟩ := candidate?_fields hmade
    subst hedge hranks
    exact ⟨e, List.mem_zipIdx_iff_getElem?.mp hi, length_of_mem_places hrs, hmade⟩
  · rintro ⟨e, h⟩
    obtain ⟨picked, hpicked, _⟩ := Option.bind_eq_some_iff.mp h.made
    have hplaces := ((mapM_head?_placed h.length).mp hpicked).mem_places
    refine List.mem_flatMap.mpr ⟨(e, c.edge), List.mem_zipIdx_iff_getElem?.mpr h.edge, ?_⟩
    exact List.mem_filterMap.mpr ⟨_, hplaces, h.made⟩

theorem key_of_candidate? {i : Nat} {e : RankedEdge α} {rs : List Nat}
    {children : List (Ranking (Parse α))} (h : e.candidate? i rs children = some c) :
    c.key = i :: rs := by
  obtain ⟨hedge, hranks, _⟩ := candidate?_fields h
  rw [key, hedge, hranks]

theorem nodup_candidatesOf (edges : List (RankedEdge α)) : ((candidatesOf edges).map key).Nodup := by
  unfold candidatesOf
  rw [List.map_flatMap, List.nodup_flatMap]
  constructor
  · rintro ⟨e, i⟩ _
    have hkeys : (((places e.children).filterMap fun rs =>
        e.candidate? i rs (placed e.children rs)).map key).Sublist
          ((places e.children).map fun rs => i :: rs) :=
      map_filterMap_sublist (fun _ _ h => key_of_candidate? h) _
    exact hkeys.nodup ((nodup_places _).map fun _ _ h => (List.cons.inj h).2)
  · have hidx : edges.zipIdx.Pairwise fun a b => a.2 ≠ b.2 := by
      refine List.pairwise_map.mp ?_
      rw [List.zipIdx_map_snd]
      exact List.nodup_range'
    refine hidx.imp fun {a b} hne _ hkey hkey' => hne ?_
    obtain ⟨c, hc, rfl⟩ := List.mem_map.mp hkey
    obtain ⟨c', hc', heq⟩ := List.mem_map.mp hkey'
    obtain ⟨_, _, hmade⟩ := List.mem_filterMap.mp hc
    obtain ⟨_, _, hmade'⟩ := List.mem_filterMap.mp hc'
    rw [key_of_candidate? hmade, key_of_candidate? hmade'] at heq
    exact (List.cons.inj heq).1.symm

def firstsOf (edges : List (RankedEdge α)) : List (Candidate α) :=
  edges.zipIdx.filterMap fun (e, i) => e.first? i

theorem mem_firstsOf : c ∈ firstsOf edges ↔
    ∃ (e : RankedEdge α) (i : Nat), edges[i]? = some e ∧ e.first? i = some c := by
  unfold firstsOf
  simp only [List.mem_filterMap, Prod.exists, List.mem_zipIdx_iff_getElem?]

theorem edge_of_first? {i : Nat} {e : RankedEdge α} (h : e.first? i = some c) : c.edge = i := by
  unfold RankedEdge.first? at h
  split at h
  · cases h
  · cases h
    rfl

theorem nodup_edge_firstsOf (edges : List (RankedEdge α)) : ((firstsOf edges).map Candidate.edge).Nodup := by
  have hsub : ((firstsOf edges).map Candidate.edge).Sublist (edges.zipIdx.map Prod.snd) :=
    map_filterMap_sublist (fun _ _ h => edge_of_first? h) _
  rw [List.zipIdx_map_snd] at hsub
  exact hsub.nodup List.nodup_range'

theorem nodup_firstsOf (edges : List (RankedEdge α)) : (firstsOf edges).Nodup :=
  (nodup_edge_firstsOf edges).of_map _

theorem start_spec [Std.TransCmp (Scalar.compare : α → α → Ordering)] (edges : List (RankedEdge α)) :
    (start edges).waiting.Ordered before ∧ (start edges).waiting.toList.Perm (firstsOf edges) ∧
      ∀ key, key ∈ (start edges).seen ↔ ∃ c ∈ firstsOf edges, c.key = key := by
  have hempty : (Heap.empty : Heap (Candidate α)).Ordered before := trivial
  obtain ⟨hordered, hperm⟩ := Heap.foldl_push strictWeak (firstsOf edges) hempty
  rw [Heap.toList, List.append_nil] at hperm
  refine ⟨hordered, hperm, fun key => ?_⟩
  unfold start
  simp only [Std.TreeSet.mem_ofList, List.contains_iff_mem, List.mem_map]
  exact Iff.rfl

end

variable {edges : List (RankedEdge EReal)} {left : List (Candidate EReal)}

theorem mem_firstsOf_iff (hsound : ∀ e ∈ edges, e.Sound) {c : Candidate EReal} :
    c ∈ firstsOf edges ↔ ∃ e, c.Valid edges e ∧ c.ranks = e.origin := by
  rw [mem_firstsOf]
  constructor
  · rintro ⟨e, i, he, hc⟩
    rw [(hsound e (List.mem_of_getElem? he)).first?_eq] at hc
    obtain ⟨rfl, hranks, _⟩ := candidate?_fields hc
    refine ⟨e, ⟨he, ?_, hranks ▸ hc⟩, hranks⟩
    rw [hranks, RankedEdge.origin, List.length_map]
  · rintro ⟨e, h, hranks⟩
    refine ⟨e, c.edge, h.edge, ?_⟩
    rw [(hsound e (List.mem_of_getElem? h.edge)).first?_eq, ← hranks]
    exact h.made

/-- At the start everything is left: what does not wait follows on something before it. -/
theorem start_ready (hsound : ∀ e ∈ edges, e.Sound) (hsorted : left.Pairwise fun a b => before a b = true)
    (hleft : ∀ c, c ∈ left ↔ ∃ e, c.Valid edges e) :
    Ready edges left (start edges) ∧ Fed left (start edges) := by
  obtain ⟨hordered, hperm, hseen⟩ := start_spec edges
  constructor
  · refine ⟨hsorted, fun c hc => (hleft c).mp hc, hordered, hperm.nodup_iff.mpr (nodup_firstsOf edges),
      fun c hc => ?_, fun c hc => ?_, fun c e hv _ => (hleft c).mpr ⟨e, hv⟩⟩
    · obtain ⟨e, hv, _⟩ := (mem_firstsOf_iff hsound).mp (hperm.mem_iff.mp hc)
      exact (hleft c).mpr ⟨e, hv⟩
    · rw [hseen, hperm.mem_iff]
      constructor
      · rintro ⟨d, hd, hkey⟩
        obtain ⟨e, hv⟩ := (hleft c).mp hc
        obtain ⟨e', hv', _⟩ := (mem_firstsOf_iff hsound).mp hd
        exact hv'.eq_of_key hv hkey ▸ hd
      · exact fun hc => ⟨c, hc, rfl⟩
  · intro c hc
    obtain ⟨e, hv⟩ := (hleft c).mp hc
    by_cases hzero : ∀ r ∈ c.ranks, r = 0
    · refine .inl (hperm.mem_iff.mpr ((mem_firstsOf_iff hsound).mpr ⟨e, hv, ?_⟩))
      rw [RankedEdge.origin, List.map_const', ← hv.length]
      exact List.eq_replicate_iff.mpr ⟨rfl, hzero⟩
    · obtain ⟨n, hn, hne⟩ : ∃ n ∈ c.ranks, n ≠ 0 := by simpa using hzero
      obtain ⟨r, rfl⟩ := Nat.exists_eq_succ_of_ne_zero hne
      obtain ⟨u, hu, hbefore, hedge, hranks, _⟩ :=
        hv.exists_before (hsound e (List.mem_of_getElem? hv.edge)) hn
      exact .inr ⟨u, (hleft u).mpr ⟨e, hu⟩, hbefore, hedge, hranks⟩

end Frontier

/-- An edge that knows the first `k` derivations of its children only. -/
structure RankedEdge.Truncated {α : Type} (k : Nat) (e e' : RankedEdge α) : Prop where
  localScore_eq : e'.localScore = e.localScore
  score_eq : e'.score = e.score
  node_eq : e'.node = e.node
  children : List.Forall₂ (fun c c' => c'.toList = c.toList.take k) e.children e'.children

section

variable {α : Type} {k : Nat}

theorem picks_truncated {cs cs' : List (Ranking (Parse α))}
    (h : List.Forall₂ (fun c c' => c'.toList = c.toList.take k) cs cs') {rs : List Nat}
    {ps : List (Parse α)} : PickedAt cs' rs ps ↔ PickedAt cs rs ps ∧ ∀ r ∈ rs, r < k := by
  induction h generalizing rs ps with
  | nil =>
    constructor
    · rintro ⟨⟩
      exact ⟨.nil, fun _ hr => by cases hr⟩
    · exact fun h => h.1
  | cons hc _ ih =>
    constructor
    · rintro ⟨⟩
      rename_i hp hps
      rw [hc, List.getElem?_take] at hp
      obtain ⟨hpicks, hlt⟩ := ih.mp hps
      split at hp
      · rename_i hr
        exact ⟨.cons hp hpicks, List.forall_mem_cons.mpr ⟨hr, hlt⟩⟩
      · cases hp
    · rintro ⟨⟨⟩, hlt⟩
      rename_i hp hps
      obtain ⟨hr, hlt⟩ := List.forall_mem_cons.mp hlt
      refine .cons ?_ (ih.mpr ⟨hps, hlt⟩)
      rw [hc, List.getElem?_take, if_pos hr]
      exact hp

theorem mapM_head?_truncated {cs cs' : List (Ranking (Parse α))}
    (h : List.Forall₂ (fun c c' => c'.toList = c.toList.take (k + 1)) cs cs') :
    cs'.mapM Ranking.head? = cs.mapM Ranking.head? := by
  induction h with
  | nil => rfl
  | cons hc _ ih =>
    rename_i c c' _ _ _
    have hhead : c'.head? = c.head? := by
      rw [← Ranking.head?_toList, hc, List.head?_take, if_neg (Nat.succ_ne_zero k), Ranking.head?_toList]
    rw [List.mapM_cons, List.mapM_cons, hhead, ih]

end

theorem RankedEdge.Truncated.sound {k : Nat} {e e' : RankedEdge EReal} (h : e.Truncated (k + 1) e')
    (he : e.Sound) : e'.Sound where
  descending c' hc' := by
    obtain ⟨c, hc, htake⟩ := mem_left_of_forall₂ h.children hc'
    rw [htake]
    exact (he.descending c hc).sublist (List.take_sublist _ _)
  score_eq := by
    rw [h.score_eq, he.score_eq, h.localScore_eq, mapM_head?_truncated h.children]

namespace Candidate

/-- A candidate without the rankings that it carries. Neither order nor key looks at these. -/
def bare {α : Type} (c : Candidate α) : Candidate α := { c with children := [] }

variable {edges edges' : List (RankedEdge EReal)} {k : Nat}

theorem valid_truncated (h : List.Forall₂ (RankedEdge.Truncated k) edges edges') {b : Candidate EReal} :
    (∃ (c : Candidate EReal) (e : RankedEdge EReal), c.Valid edges' e ∧ c.bare = b) ↔
      (∃ (c : Candidate EReal) (e : RankedEdge EReal), c.Valid edges e ∧ c.bare = b) ∧
        ∀ r ∈ b.ranks, r < k := by
  constructor
  · rintro ⟨c, e', hv, rfl⟩
    obtain ⟨hedge, _, picked, hpicked, hne, hparse⟩ := valid_iff.mp hv
    obtain ⟨e, he, ht⟩ := getElem?_left_of_forall₂ h hedge
    obtain ⟨hpicked, hlt⟩ := (picks_truncated ht.children).mp hpicked
    rw [ht.node_eq, ht.localScore_eq] at hparse
    refine ⟨⟨{ c with children := placed e.children c.ranks }, e, ?_, rfl⟩, hlt⟩
    exact valid_iff.mpr ⟨he, rfl, picked, hpicked, hne, hparse⟩
  · rintro ⟨⟨c, e, hv, rfl⟩, hlt⟩
    obtain ⟨hedge, _, picked, hpicked, hne, hparse⟩ := valid_iff.mp hv
    obtain ⟨e', he', ht⟩ := getElem?_right_of_forall₂ h hedge
    rw [← ht.node_eq, ← ht.localScore_eq] at hparse
    refine ⟨{ c with children := placed e'.children c.ranks }, e', ?_, rfl⟩
    exact valid_iff.mpr ⟨he', rfl, picked, (picks_truncated ht.children).mpr ⟨hpicked, hlt⟩, hne, hparse⟩

/-- What each step down takes to a candidate before has no more steps than there are candidates before. -/
theorem le_index_of_before {all : List (Candidate EReal)} (hsorted : all.Pairwise fun a b => before a b = true)
    (depth : Candidate EReal → Nat → Prop)
    (hstep : ∀ c ∈ all, ∀ n, depth c (n + 1) → ∃ u ∈ all, before u c = true ∧ depth u n) (j : Nat) :
    ∀ {c : Candidate EReal}, all[j]? = some c → ∀ n, depth c n → n ≤ j := by
  induction j using Nat.strong_induction_on with
  | _ j ih =>
    intro c hc n hn
    cases n with
    | zero => exact Nat.zero_le _
    | succ n =>
      obtain ⟨u, hu, hbefore, hn'⟩ := hstep c (List.mem_of_getElem? hc) n hn
      obtain ⟨i, hi⟩ := List.mem_iff_getElem?.mp hu
      have hlt : i < j := by
        by_contra hge
        obtain ⟨hilt, hiu⟩ := List.getElem?_eq_some_iff.mp hi
        obtain ⟨hjlt, hjc⟩ := List.getElem?_eq_some_iff.mp hc
        have hasymm := strictWeak.asymm u c hbefore
        rcases Nat.eq_or_lt_of_le (Nat.le_of_not_lt hge) with rfl | hlt
        · rw [hiu] at hjc
          subst hjc
          simp [hasymm] at hbefore
        · have hcu := List.pairwise_iff_getElem.mp hsorted j i hjlt hilt hlt
          rw [hjc, hiu, hasymm] at hcu
          cases hcu
      have := ih i hlt hi n hn'
      omega

theorem rank_le_index (hsound : ∀ e ∈ edges, e.Sound) {all : List (Candidate EReal)}
    (hsorted : all.Pairwise fun a b => before a b = true)
    (hall : ∀ c, c ∈ all ↔ ∃ e, c.Valid edges e) (j : Nat) :
    ∀ {c : Candidate EReal}, all[j]? = some c → ∀ r ∈ c.ranks, r ≤ j := by
  refine le_index_of_before hsorted (fun c r => r ∈ c.ranks) (fun c hc r hr => ?_) j
  obtain ⟨e, hv⟩ := (hall c).mp hc
  obtain ⟨u, hu, hbefore, _, _, hr'⟩ := hv.exists_before (hsound e (List.mem_of_getElem? hv.edge)) hr
  exact ⟨u, (hall u).mpr ⟨e, hu⟩, hbefore, hr'⟩

theorem nodup_of_sorted {all : List (Candidate EReal)}
    (hsorted : all.Pairwise fun a b => before a b = true) : all.Nodup := by
  refine hsorted.imp fun {a b} hab => ?_
  rintro rfl
  simp [strictWeak.asymm a a hab] at hab

/-- Without the rankings that they carry, the candidates over the first derivations of the children are
those of all candidates with small places, in the same order. -/
theorem map_bare_eq (h : List.Forall₂ (RankedEdge.Truncated k) edges edges')
    {all all' : List (Candidate EReal)} (hsorted : all.Pairwise fun a b => before a b = true)
    (hall : ∀ c, c ∈ all ↔ ∃ e, c.Valid edges e)
    (hsorted' : all'.Pairwise fun a b => before a b = true)
    (hall' : ∀ c, c ∈ all' ↔ ∃ e, c.Valid edges' e) :
    all'.map bare = (all.map bare).filter fun c => c.ranks.all fun r => r < k := by
  have hbare : ∀ {cs : List (Candidate EReal)}, cs.Pairwise (fun a b => before a b = true) →
      (cs.map bare).Pairwise fun a b => before a b = true := fun h => List.pairwise_map.mpr h
  refine List.Perm.eq_of_pairwise (fun a b _ _ hab hba => ?_) (hbare hsorted')
    ((hbare hsorted).filter _) ?_
  · simp [strictWeak.asymm a b hab] at hba
  · refine (List.perm_ext_iff_of_nodup (nodup_of_sorted (hbare hsorted'))
      ((nodup_of_sorted (hbare hsorted)).filter _)).mpr fun b => ?_
    simp only [List.mem_map, List.mem_filter, List.all_eq_true, decide_eq_true_eq, hall', hall]
    have hvalid := valid_truncated h (b := b)
    simpa only [exists_and_right, exists_and_left, ← exists_and_right] using hvalid

theorem exists_sorted_valid (edges : List (RankedEdge EReal)) : ∃ all : List (Candidate EReal),
    all.Pairwise (fun a b => before a b = true) ∧ ∀ c, c ∈ all ↔ ∃ e, c.Valid edges e := by
  obtain ⟨all, hperm, hsorted⟩ := exists_sorted _ (Frontier.nodup_candidatesOf edges)
  exact ⟨all, hsorted, fun c => hperm.mem_iff.trans Frontier.mem_candidatesOf⟩

theorem exists_listing (edges : List (RankedEdge EReal)) (hsound : ∀ e ∈ edges, e.Sound) :
    ∃ all : List (Candidate EReal), all.Pairwise (fun a b => before a b = true) ∧
      (∀ c, c ∈ all ↔ ∃ e, c.Valid edges e) ∧
      ∀ k edges', List.Forall₂ (RankedEdge.Truncated k) edges edges' →
        (FineChart.rank k edges').toList = (all.take k).map Candidate.parse := by
  obtain ⟨all, hsorted, hall⟩ := exists_sorted_valid edges
  refine ⟨all, hsorted, hall, fun k edges' htruncated => ?_⟩
  cases k with
  | zero => simp [FineChart.rank, Frontier.ranking, Ranking.toList]
  | succ k =>
    obtain ⟨all', hsorted', hall'⟩ := exists_sorted_valid edges'
    have hsound' : ∀ e' ∈ edges', e'.Sound := by
      intro e' he'
      obtain ⟨e, he, ht⟩ := mem_left_of_forall₂ htruncated he'
      exact ht.sound (hsound e he)
    obtain ⟨hready, hfed⟩ := Frontier.start_ready hsound' hsorted' hall'
    have hparse : ∀ cs : List (Candidate EReal),
        (cs.take (k + 1)).map Candidate.parse = ((cs.map bare).take (k + 1)).map Candidate.parse := by
      intro cs
      rw [← List.map_take, List.map_map]
      rfl
    rw [FineChart.rank, hready.ranking_eq _ hfed, hparse all',
      map_bare_eq htruncated hsorted hall hsorted' hall', take_filter_eq, ← hparse]
    intro c hc
    obtain ⟨j, hj⟩ := List.mem_iff_getElem?.mp hc
    rw [← List.map_take, List.getElem?_map, Option.map_eq_some_iff] at hj
    obtain ⟨d, hd, rfl⟩ := hj
    rw [List.getElem?_take] at hd
    split at hd
    · rename_i hlt
      simp only [List.all_eq_true, decide_eq_true_eq]
      exact fun r hr => Nat.lt_of_le_of_lt (rank_le_index hsound hsorted hall j hd r hr) hlt
    · cases hd

end Candidate

end Categorial
