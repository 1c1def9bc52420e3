import Categorial.Proofs.Double.Order
import Categorial.Proofs.KBest.Ranked
set_option autoImplicit false

namespace Categorial

open Frontier Candidate

section

variable {α : Type} [Scalar α] [Std.TransCmp (Scalar.compare : α → α → Ordering)]

theorem rank_one (edges : List (RankedEdge α)) :
    (firstsOf edges = [] ∧ (FineChart.rank 1 edges).toList = []) ∨
      ∃ c ∈ firstsOf edges, (FineChart.rank 1 edges).toList = [c.parse] ∧
        ∀ d ∈ firstsOf edges, before d c = false := by
  obtain ⟨hordered, hperm, _⟩ := start_spec edges
  rw [FineChart.rank, ranking]
  cases hpop : (start edges).waiting.pop? before with
  | none =>
    rw [Heap.pop?_eq_none] at hpop
    rw [hpop, List.nil_perm] at hperm
    exact .inl ⟨hperm, by simp [Ranking.toList]⟩
  | some popped =>
    obtain ⟨c, rest⟩ := popped
    have hall := (Heap.toList_pop? hpop).symm.trans hperm
    obtain ⟨_, hleast⟩ := Heap.ordered_pop? strictWeak hordered hpop
    refine .inr ⟨c, hall.mem_iff.mp List.mem_cons_self, ?_, fun d hd => ?_⟩
    · simp [Ranking.toList, ranking, Thunk.get]
    · rcases List.mem_cons.mp (hall.mem_iff.mpr hd) with rfl | hd
      · refine Bool.eq_false_iff.mpr fun h => ?_
        simp [strictWeak.asymm d d h] at h
      · exact hleast d hd

end

theorem first?_eq_some {α : Type} [Scalar α] {i : Nat} {e : RankedEdge α} {c : Candidate α} :
    e.first? i = some c ↔ Scalar.isBottom e.score = false ∧
      c = ⟨⟨e.node ((e.children.filterMap Ranking.head?).map Parse.tree), e.score⟩, i, e.origin,
        e.children⟩ := by
  unfold RankedEdge.first? RankedEdge.origin
  cases Scalar.isBottom e.score with
  | true => simp
  | false => simp [eq_comm]

namespace Candidate

theorem before_of_orderKey {a b : Candidate Double}
    (h : b.parse.score.orderKey < a.parse.score.orderKey ∨
      b.parse.score.orderKey ≤ a.parse.score.orderKey ∧ compare a.key b.key = .lt) :
    before a b = true := by
  rw [before_iff, Candidate.cmp, Ordering.then_eq_lt, Double.compare_eq_lt, Double.compare_eq_eq]
  rcases h with hlt | ⟨hle, hkey⟩
  · exact .inl hlt
  · rcases lt_or_eq_of_le hle with hlt | heq
    · exact .inl hlt
    · exact .inr ⟨Double.orderKey_inj heq, hkey⟩

end Candidate

def ZerosSwapped (scores : List Double) : Prop :=
  scores.head? = some Double.minusZero ∧ Double.plusZero ∈ scores

/-- Of edges in descending order the one that makes the only entry is the first, unless zeros are swapped:
then it is one of another score. -/
theorem exists_first {first : RankedEdge Double} {rest : List (RankedEdge Double)}
    (hdesc : Descending RankedEdge.score (first :: rest))
    (hbottom : Scalar.isBottom first.score = false) :
    ∃ e ∈ first :: rest, Scalar.isBottom e.score = false ∧ (FineChart.rank 1 (first :: rest)).toList =
        [⟨e.node ((e.children.filterMap Ranking.head?).map Parse.tree), e.score⟩] ∧
      (¬ZerosSwapped ((first :: rest).map RankedEdge.score) ∧ e = first ∨
        ZerosSwapped ((first :: rest).map RankedEdge.score) ∧ e.score ≠ first.score) := by
  have hwaits : ∀ {i : Nat} {e : RankedEdge Double}, (first :: rest)[i]? = some e →
      Scalar.isBottom e.score = false → ∃ d ∈ firstsOf (first :: rest), d.parse.score = e.score ∧
        d.key = i :: e.origin := by
    intro i e he hbottom
    exact ⟨_, mem_firstsOf.mpr ⟨e, i, he, first?_eq_some.mpr ⟨hbottom, rfl⟩⟩, rfl, rfl⟩
  rcases rank_one (first :: rest) with ⟨hnil, _⟩ | ⟨c, hc, hrank, hleast⟩
  · obtain ⟨d, hd, _⟩ := hwaits (i := 0) rfl hbottom
    rw [hnil] at hd
    cases hd
  obtain ⟨e, i, he, hfirst⟩ := mem_firstsOf.mp hc
  obtain ⟨hpossible, rfl⟩ := first?_eq_some.mp hfirst
  refine ⟨e, List.mem_of_getElem? he, hpossible, hrank, ?_⟩
  by_cases hswapped : ZerosSwapped ((first :: rest).map RankedEdge.score)
  · -- the edge with the positive zero stands before any with the negative one
    refine .inr ⟨hswapped, fun hsame => ?_⟩
    obtain ⟨hminus, hplus⟩ := hswapped
    obtain ⟨e', he', hscore'⟩ := List.mem_map.mp hplus
    obtain ⟨j, hj⟩ := List.mem_iff_getElem?.mp he'
    obtain ⟨d, hd, hscore, _⟩ := hwaits hj (hscore' ▸ rfl)
    have hminus : first.score = Double.minusZero := Option.some.inj hminus
    refine absurd (before_of_orderKey (.inl ?_)) (Bool.eq_false_iff.mp (hleast d hd))
    rw [hsame, hminus, hscore, hscore']
    exact Double.orderKey_minusZero_lt
  · refine .inl ⟨hswapped, ?_⟩
    cases i with
    | zero =>
      cases he
      rfl
    | succ i =>
      have hmem : e ∈ rest := List.mem_of_getElem? (he : rest[i]? = some e)
      have hle := (List.pairwise_cons.mp hdesc).1 e hmem
      rcases Double.orderKey_le_of_le hle with hle | ⟨hplus, hminus⟩
      · obtain ⟨d, hd, hscore, hkey⟩ := hwaits (i := 0) rfl hbottom
        refine absurd (before_of_orderKey (.inr ⟨?_, ?_⟩)) (Bool.eq_false_iff.mp (hleast d hd))
        · rw [hscore]
          exact hle
        · rw [hkey, key, List.compare_cons_cons]
          simp [Nat.compare_eq_lt.mpr (Nat.succ_pos i)]
      · exact absurd ⟨congrArg some hminus, List.mem_map.mpr ⟨e, by simp [hmem], hplus⟩⟩ hswapped

end Categorial
