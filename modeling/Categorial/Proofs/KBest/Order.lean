import Categorial.Chart.Extraction
import Categorial.Heap
import Mathlib.Data.List.Nodup
set_option autoImplicit false

/-!
The order in which derivations are taken. In a heap no entry stands before one above it; merging keeps that, so
what is taken is least. Derivations stand in the order of their scores, higher ones first, and of equal scores the
smaller key is first. Keys tell the derivations of an item apart, so there is one order for all of them.
-/

namespace Categorial

/-- What the heap needs of the order: of two entries only one may stand before the other, and entries that
stand nowhere before others do so in a chain. -/
structure StrictWeak {β : Type} (before : β → β → Bool) : Prop where
  asymm : ∀ a b, before a b = true → before b a = false
  chain : ∀ a b c, before b a = false → before c b = false → before c a = false

namespace Heap

variable {β : Type} {before : β → β → Bool}

/-- No entry stands before one above it. -/
def Ordered (before : β → β → Bool) : Heap β → Prop
  | empty => True
  | node _ x l r =>
    (∀ y ∈ l.toList ++ r.toList, before y x = false) ∧ Ordered before l ∧ Ordered before r

theorem ordered_join {x : β} {a b : Heap β} (hx : ∀ y ∈ a.toList ++ b.toList, before y x = false)
    (ha : a.Ordered before) (hb : b.Ordered before) : (join x a b).Ordered before := by
  unfold join
  split
  · exact ⟨hx, ha, hb⟩
  · exact ⟨fun y hy => hx y (List.perm_append_comm.mem_iff.mp hy), hb, ha⟩

theorem ordered_mergeNode (hb : StrictWeak before) {x : β} {left : Heap β} {right : Heap β → Heap β}
    {entries : List β} (hright : ∀ h, (right h).toList.Perm (entries ++ h.toList))
    (hordered : ∀ h, h.Ordered before → (right h).Ordered before) (hleft : left.Ordered before)
    (hx : ∀ y ∈ left.toList ++ entries, before y x = false) {h : Heap β} (hh : h.Ordered before) :
    (mergeNode before x left right h).Ordered before := by
  -- `x` stays above, once nothing in the other heap stands before it
  have habove : ∀ h : Heap β, h.Ordered before → (∀ y ∈ h.toList, before y x = false) →
      (join x left (right h)).Ordered before := by
    intro h hh hall
    refine ordered_join (fun y hy => ?_) hleft (hordered h hh)
    rcases List.mem_append.mp hy with hy | hy
    · exact hx y (List.mem_append_left _ hy)
    · rcases List.mem_append.mp ((hright h).mem_iff.mp hy) with hy | hy
      · exact hx y (List.mem_append_right _ hy)
      · exact hall y hy
  induction h with
  | empty => exact habove empty trivial fun _ hy => by simp [toList] at hy
  | node n y l r _ ih =>
    obtain ⟨hy, hl, hr⟩ := hh
    unfold mergeNode
    cases hbefore : before y x with
    | true =>
      refine ordered_join (fun z hz => ?_) hl (ih hr)
      rcases List.mem_append.mp hz with hz | hz
      · exact hy z (List.mem_append_left _ hz)
      · have hxy : before x y = false := hb.asymm y x hbefore
        have hz := (toList_mergeNode before x left right entries hright r).mem_iff.mp hz
        rw [List.cons_append, List.mem_cons, List.mem_append] at hz
        rcases hz with rfl | hz | hz
        · exact hxy
        · exact hb.chain y x z hxy (hx z hz)
        · exact hy z (List.mem_append_right _ hz)
    | false =>
      refine habove _ ⟨hy, hl, hr⟩ fun z hz => ?_
      rcases List.mem_cons.mp hz with rfl | hz
      · exact hbefore
      · exact hb.chain x y z hbefore (hy z hz)

theorem ordered_merge (hb : StrictWeak before) {a : Heap β} (ha : a.Ordered before) :
    ∀ {b : Heap β}, b.Ordered before → (merge before a b).Ordered before := by
  induction a with
  | empty => exact fun hb => hb
  | node n x l r _ ih =>
    obtain ⟨hx, hl, hr⟩ := ha
    exact fun hh => ordered_mergeNode hb (toList_merge before r) (fun _ => ih hr) hl hx hh

theorem ordered_push (hb : StrictWeak before) {h : Heap β} (hh : h.Ordered before) (x : β) :
    (h.push before x).Ordered before := by
  have hone : (node 1 x empty empty).Ordered before :=
    ⟨fun _ hy => by simp [toList] at hy, trivial, trivial⟩
  exact ordered_merge hb hone hh

theorem ordered_pop? (hb : StrictWeak before) {h rest : Heap β} {x : β} (hh : h.Ordered before)
    (hp : h.pop? before = some (x, rest)) :
    rest.Ordered before ∧ ∀ y ∈ rest.toList, before y x = false := by
  cases h with
  | empty => simp [pop?] at hp
  | node n y l r =>
    obtain ⟨hy, hl, hr⟩ := hh
    simp only [pop?, Option.some.injEq, Prod.mk.injEq] at hp
    obtain ⟨rfl, rfl⟩ := hp
    exact ⟨ordered_merge hb hl hr, fun z hz => hy z ((toList_merge before l r).mem_iff.mp hz)⟩

theorem pop?_eq_none {h : Heap β} : h.pop? before = none ↔ h.toList = [] := by
  cases h with
  | empty => simp [pop?, toList]
  | node n x l r => simp [pop?, toList]

theorem foldl_push (hb : StrictWeak before) (xs : List β) : ∀ {h : Heap β}, h.Ordered before →
    (xs.foldl (push before) h).Ordered before ∧
      (xs.foldl (push before) h).toList.Perm (xs ++ h.toList) := by
  induction xs with
  | nil => exact fun hh => ⟨hh, List.Perm.refl _⟩
  | cons x xs ih =>
    intro h hh
    obtain ⟨hordered, hperm⟩ := ih (ordered_push hb hh x)
    refine ⟨hordered, hperm.trans ?_⟩
    exact ((toList_push before h x).append_left xs).trans List.perm_middle

end Heap

namespace Candidate

variable {α : Type} [Scalar α]

def cmp (a b : Candidate α) : Ordering :=
  (Scalar.compare b.parse.score a.parse.score).then (compare a.key b.key)

theorem before_iff {a b : Candidate α} : before a b = true ↔ cmp a b = .lt := by
  simp [before, cmp]

theorem before_eq_false {a b : Candidate α} : before a b = false ↔ (cmp a b).isGE = true := by
  rw [← Bool.not_eq_true, before_iff]
  cases cmp a b <;> decide

variable [Std.TransCmp (Scalar.compare : α → α → Ordering)]

instance : Std.TransCmp fun a b : Candidate α => Scalar.compare b.parse.score a.parse.score where
  eq_swap := Std.OrientedCmp.eq_swap
  isLE_trans hab hbc := Std.TransCmp.isLE_trans hbc hab

instance : Std.TransCmp fun a b : Candidate α => compare a.key b.key where
  eq_swap := Std.OrientedCmp.eq_swap
  isLE_trans := Std.TransCmp.isLE_trans

instance : Std.TransCmp (cmp : Candidate α → Candidate α → Ordering) :=
  inferInstanceAs (Std.TransCmp (compareLex _ _))

theorem strictWeak : StrictWeak (before : Candidate α → Candidate α → Bool) where
  asymm a b h := by
    have hswap : cmp b a = (cmp a b).swap := Std.OrientedCmp.eq_swap
    rw [before_eq_false, hswap, before_iff.mp h]
    rfl
  chain a b c hba hcb := by
    rw [before_eq_false] at hba hcb ⊢
    exact Std.TransCmp.isGE_trans hcb hba

/-- Of two derivations with different keys, one is taken before the other. -/
theorem before_or_before {a b : Candidate α} (h : a.key ≠ b.key) :
    before a b = true ∨ before b a = true := by
  rcases hab : cmp a b with _ | _ | _
  · exact .inl (before_iff.mpr hab)
  · refine absurd ?_ h
    have hkeys : compare a.key b.key = .eq := by
      unfold cmp at hab
      exact (Ordering.then_eq_eq.mp hab).2
    exact Std.LawfulEqOrd.eq_of_compare hkeys
  · have hswap : cmp b a = (cmp a b).swap := Std.OrientedCmp.eq_swap
    refine .inr (before_iff.mpr ?_)
    rw [hswap, hab]
    rfl

theorem exists_sorted (cs : List (Candidate α)) (hkeys : (cs.map key).Nodup) :
    ∃ sorted : List (Candidate α), sorted.Perm cs ∧ sorted.Pairwise fun a b => before a b = true := by
  have hsw : StrictWeak (before : Candidate α → Candidate α → Bool) := strictWeak
  have hperm := List.mergeSort_perm cs fun a b => !before b a
  refine ⟨cs.mergeSort fun a b => !before b a, hperm, ?_⟩
  have hsorted : (cs.mergeSort fun a b => !before b a).Pairwise fun a b => (!before b a) = true := by
    refine List.pairwise_mergeSort (fun a b c hab hbc => ?_) (fun a b => ?_) cs
    · simp only [Bool.not_eq_true'] at hab hbc ⊢
      exact hsw.chain a b c hab hbc
    · cases hba : before b a with
      | false => rfl
      | true => simp [hsw.asymm b a hba]
  have hnodup : (cs.mergeSort fun a b => !before b a).Pairwise fun a b => a.key ≠ b.key :=
    List.pairwise_map.mp ((hperm.map key).nodup_iff.mpr hkeys)
  refine (hsorted.and hnodup).imp fun {a b} h => ?_
  rcases before_or_before h.2 with hab | hba
  · exact hab
  · simp [hba] at h

end Candidate

end Categorial
