import Categorial.Proofs.ExactScalar
import Categorial.Proofs.Fine.Kept
import Categorial.Proofs.KBest.Frontier
import Categorial.Proofs.Lists
set_option autoImplicit false

namespace Categorial

namespace Ranking

variable {β : Type}

theorem toList_iterate_tail (n : Nat) (r : Ranking β) :
    (Nat.iterate Ranking.tail n r).toList = r.toList.drop n := by
  induction n generalizing r with
  | zero => rfl
  | succ n ih => rw [Function.iterate_succ_apply, ih, ← tail_toList, List.drop_tail]

theorem head?_iterate_tail (n : Nat) (r : Ranking β) :
    (Nat.iterate Ranking.tail n r).head? = r.toList[n]? := by
  rw [← head?_toList, toList_iterate_tail, List.head?_drop]

end Ranking

/-- The derivations at some places of the children's rankings. -/
inductive PickedAt {α : Type} : List (Ranking (Parse α)) → List Nat → List (Parse α) → Prop where
  | nil : PickedAt [] [] []
  | cons {c : Ranking (Parse α)} {r : Nat} {p : Parse α} {cs : List (Ranking (Parse α))} {rs : List Nat}
      {ps : List (Parse α)} : c.toList[r]? = some p → PickedAt cs rs ps →
      PickedAt (c :: cs) (r :: rs) (p :: ps)

section

variable {α : Type} {cs : List (Ranking (Parse α))} {rs : List Nat} {ps : List (Parse α)}

theorem PickedAt.length (h : PickedAt cs rs ps) : rs.length = cs.length := by
  induction h with
  | nil => rfl
  | cons _ _ ih => simp [ih]

theorem PickedAt.forall₂_mem (h : PickedAt cs rs ps) : List.Forall₂ (fun r p => p ∈ r.toList) cs ps := by
  induction h with
  | nil => exact .nil
  | cons hp _ ih => exact .cons (List.mem_of_getElem? hp) ih

theorem pickedAt_singleton {c : Ranking (Parse α)} :
    PickedAt [c] rs ps ↔ ∃ k p, rs = [k] ∧ ps = [p] ∧ c.toList[k]? = some p := by
  constructor
  · rintro (_ | ⟨hp, ⟨⟩⟩)
    exact ⟨_, _, rfl, rfl, hp⟩
  · rintro ⟨k, p, rfl, rfl, hp⟩
    exact .cons hp .nil

theorem PickedAt.ranks_unique {cs : List (Ranking (Parse α))}
    (hnodup : ∀ c ∈ cs, (c.toList.map Parse.tree).Nodup) :
    ∀ {rs rs' : List Nat} {ps ps' : List (Parse α)},
    PickedAt cs rs ps → PickedAt cs rs' ps' → ps.map Parse.tree = ps'.map Parse.tree → rs = rs' := by
  induction cs with
  | nil =>
    rintro _ _ _ _ ⟨⟩ ⟨⟩ _
    rfl
  | cons c cs ih =>
    rintro _ _ _ _ (_ | ⟨hp, hps⟩) (_ | ⟨hp', hps'⟩) htrees
    simp only [List.map_cons, List.cons.injEq] at htrees
    rw [index_eq_of_nodup_map (hnodup c (by simp)) hp hp' htrees.1,
      ih (fun c hc => hnodup c (by simp [hc])) hps hps' htrees.2]

theorem mapM_head?_placed : ∀ {cs : List (Ranking (Parse α))} {rs : List Nat} {ps : List (Parse α)},
    rs.length = cs.length →
    ((Candidate.placed cs rs).mapM Ranking.head? = some ps ↔ PickedAt cs rs ps) := by
  intro cs
  induction cs with
  | nil =>
    intro rs ps h
    obtain rfl := List.length_eq_zero_iff.mp h
    constructor
    · intro h
      cases h
      exact .nil
    · rintro ⟨⟩
      rfl
  | cons c cs ih =>
    intro rs ps h
    cases rs with
    | nil => cases h
    | cons r rs =>
      have hlen : rs.length = cs.length := Nat.succ.inj h
      have hplaced : Candidate.placed (c :: cs) (r :: rs) =
        Nat.iterate Ranking.tail r c :: Candidate.placed cs rs := rfl
      rw [hplaced, List.mapM_cons, Option.bind_eq_bind, Option.bind_eq_some_iff]
      constructor
      · rintro ⟨p, hp, h⟩
        obtain ⟨ps', hps, h⟩ := Option.bind_eq_some_iff.mp h
        cases h
        rw [Ranking.head?_iterate_tail] at hp
        exact .cons hp ((ih hlen).mp hps)
      · rintro ⟨⟩
        rename_i p ps hp hps
        refine ⟨p, (Ranking.head?_iterate_tail r c).trans hp, ?_⟩
        exact Option.bind_eq_some_iff.mpr ⟨ps, (ih hlen).mpr hps, rfl⟩

def places : List (Ranking (Parse α)) → List (List Nat)
  | [] => [[]]
  | c :: cs => (List.range c.toList.length).flatMap fun r => (places cs).map fun rs => r :: rs

theorem PickedAt.mem_places (h : PickedAt cs rs ps) : rs ∈ places cs := by
  induction h with
  | nil => exact List.mem_singleton.mpr rfl
  | cons hp _ ih =>
    refine List.mem_flatMap.mpr ⟨_, List.mem_range.mpr ?_, List.mem_map.mpr ⟨_, ih, rfl⟩⟩
    exact (List.getElem?_eq_some_iff.mp hp).1

theorem length_of_mem_places (h : rs ∈ places cs) :
    rs.length = cs.length := by
  induction cs generalizing rs with
  | nil => simp [List.mem_singleton.mp h]
  | cons c cs ih =>
    obtain ⟨_, _, h⟩ := List.mem_flatMap.mp h
    obtain ⟨rest, hrest, rfl⟩ := List.mem_map.mp h
    simp [ih hrest]

theorem nodup_places (cs : List (Ranking (Parse α))) : (places cs).Nodup := by
  induction cs with
  | nil => exact List.nodup_singleton _
  | cons c cs ih =>
    refine List.nodup_flatMap.mpr ⟨fun r _ => ih.map fun _ _ h => (List.cons.inj h).2, ?_⟩
    refine List.nodup_range.imp fun {a b} hne x hx hx' => hne ?_
    obtain ⟨_, _, rfl⟩ := List.mem_map.mp hx
    obtain ⟨_, _, heq⟩ := List.mem_map.mp hx'
    exact (List.cons.inj heq).1.symm

end

def Candidate.Distinct {α : Type} (edges : List (RankedEdge α)) : Prop :=
  ∀ {i j : Nat} {e e' : RankedEdge α} {rs rs' : List Nat} {ps ps' : List (Parse α)},
    edges[i]? = some e → edges[j]? = some e' → PickedAt e.children rs ps → PickedAt e'.children rs' ps' →
    e.node (ps.map Parse.tree) = e'.node (ps'.map Parse.tree) → i = j ∧ rs = rs'

theorem foldl_both (x : EReal) (ps : List (Parse EReal)) :
    ps.foldl (fun x p => Scalar.both x p.score) x = x + (ps.map Parse.score).sum := by
  induction ps generalizing x with
  | nil => simp
  | cons p ps ih =>
    rw [List.foldl_cons, ih, ExactScalar.both_eq, List.map_cons, List.sum_cons, add_assoc]

namespace Candidate

variable {edges : List (RankedEdge EReal)} {c : Candidate EReal} {e : RankedEdge EReal}

theorem valid_iff : c.Valid edges e ↔ edges[c.edge]? = some e ∧ c.children = placed e.children c.ranks ∧
    ∃ picked, PickedAt e.children c.ranks picked ∧ c.parse.score ≠ ⊥ ∧
      c.parse = ⟨e.node (picked.map Parse.tree), e.localScore + (picked.map Parse.score).sum⟩ := by
  constructor
  · intro h
    have hmade := h.made
    unfold RankedEdge.candidate? at hmade
    obtain ⟨picked, hpicked, hmade⟩ := Option.bind_eq_some_iff.mp hmade
    simp only [foldl_both] at hmade
    split at hmade
    · cases hmade
    · rename_i hbottom
      have hparse := congrArg Candidate.parse (Option.some.inj hmade)
      refine ⟨h.edge, (candidate?_fields h.made).2.2, picked, (mapM_head?_placed h.length).mp hpicked,
        ?_, hparse.symm⟩
      rw [← hparse]
      simpa using hbottom
  · rintro ⟨hedge, hchildren, picked, hpicked, hne, hparse⟩
    refine ⟨hedge, hpicked.length, ?_⟩
    unfold RankedEdge.candidate?
    refine Option.bind_eq_some_iff.mpr ⟨picked, (mapM_head?_placed hpicked.length).mpr hpicked, ?_⟩
    rw [hparse] at hne
    simp only [foldl_both, ExactScalar.isBottom_iff, if_neg hne, Option.some.injEq]
    rw [← hparse, ← hchildren]

end Candidate

theorem PickedAt.exists_before {cs : List (Ranking (Parse EReal))} {rs : List Nat}
    {ps : List (Parse EReal)} (h : PickedAt cs rs ps)
    (hdesc : ∀ c ∈ cs, Descending Parse.score c.toList) {r : Nat} (hr : r + 1 ∈ rs) :
    ∃ rs' ps', PickedAt cs rs' ps' ∧ rs ∈ Candidate.bumps rs' ∧ r ∈ rs' ∧
      (ps.map Parse.score).sum ≤ (ps'.map Parse.score).sum ∧ compare rs' rs = .lt := by
  induction h with
  | nil => cases hr
  | @cons c r₀ p cs rs ps hp hps ih =>
    rcases List.mem_cons.mp hr with rfl | hr
    · obtain ⟨hlt, hget⟩ := List.getElem?_eq_some_iff.mp hp
      have hlt' : r < c.toList.length := by omega
      refine ⟨r :: rs, c.toList[r] :: ps, .cons (List.getElem?_eq_getElem hlt') hps, ?_, by simp, ?_, ?_⟩
      · exact List.mem_cons_self
      · have hle := (List.pairwise_iff_getElem.mp (hdesc c (by simp))) r (r + 1) hlt' hlt (by omega)
        rw [hget, ExactScalar.le_iff] at hle
        simp only [List.map_cons, List.sum_cons]
        exact add_le_add_left hle _
      · rw [List.compare_cons_cons]
        simp [Nat.compare_eq_lt.mpr (Nat.lt_succ_self r)]
    · obtain ⟨rs', ps', hpicks, hbump, hmem, hle, hlt⟩ := ih (fun c hc => hdesc c (by simp [hc])) hr
      refine ⟨r₀ :: rs', p :: ps', .cons hp hpicks, ?_, by simp [hmem], ?_, ?_⟩
      · exact List.mem_cons_of_mem _ (List.mem_map.mpr ⟨rs, hbump, rfl⟩)
      · simp only [List.map_cons, List.sum_cons]
        exact add_le_add_right hle _
      · rw [List.compare_cons_cons]
        simp [hlt]

/-- The rankings of an edge's children are in descending order, and its score is that of the first
derivations, if there are any. -/
structure RankedEdge.Sound (e : RankedEdge EReal) : Prop where
  descending : ∀ c ∈ e.children, Descending Parse.score c.toList
  score_eq : e.score = (e.children.mapM Ranking.head?).elim ⊥ fun picked =>
    e.localScore + (picked.map Parse.score).sum

namespace Candidate

variable {edges : List (RankedEdge EReal)} {c : Candidate EReal} {e : RankedEdge EReal}

/-- A candidate with a place that is not the first follows on one that comes before it. -/
theorem Valid.exists_before (h : c.Valid edges e) (he : e.Sound) {r : Nat} (hr : r + 1 ∈ c.ranks) :
    ∃ u : Candidate EReal, u.Valid edges e ∧ before u c = true ∧ c.edge = u.edge ∧
      c.ranks ∈ bumps u.ranks ∧ r ∈ u.ranks := by
  obtain ⟨hedge, _, picked, hpicked, hne, hparse⟩ := valid_iff.mp h
  obtain ⟨rs, ps, hpicks, hbump, hmem, hle, hlt⟩ := hpicked.exists_before he.descending hr
  have hscore : c.parse.score ≤ e.localScore + (ps.map Parse.score).sum := by
    rw [hparse]
    exact add_le_add_right hle _
  refine ⟨⟨⟨e.node (ps.map Parse.tree), e.localScore + (ps.map Parse.score).sum⟩, c.edge, rs,
    placed e.children rs⟩, ?_, ?_, rfl, hbump, hmem⟩
  · refine valid_iff.mpr ⟨hedge, rfl, ps, hpicks, fun hbottom => hne ?_, rfl⟩
    exact le_bot_iff.mp (hbottom ▸ hscore)
  · rw [before_iff, cmp, key, key, List.compare_cons_cons, Ordering.then_eq_lt]
    rcases lt_or_eq_of_le hscore with hlt' | heq
    · exact .inl (compare_lt_iff_lt.mpr hlt')
    · exact .inr ⟨compare_eq_iff_eq.mpr heq, by simp [hlt]⟩

end Candidate

end Categorial
