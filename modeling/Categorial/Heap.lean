set_option autoImplicit false

/-!
Priority queues as leftist trees: every entry stands before the entries below it, and the right part of
a tree is never the deeper one, so entries are added and taken in logarithmic time. The order is given
with each operation. The laws say that no entry is lost or made up.
-/

namespace Categorial

inductive Heap (β : Type) where
  | empty
  /-- The rank is the number of entries on the way down along right parts. -/
  | node (rank : Nat) (top : β) (left right : Heap β)

namespace Heap

variable {β : Type}

def toList : Heap β → List β
  | empty => []
  | node _ x l r => x :: (l.toList ++ r.toList)

def rank : Heap β → Nat
  | empty => 0
  | node n _ _ _ => n

/-- An entry above two heaps, of which that of higher rank goes to the left. -/
def join (x : β) (a b : Heap β) : Heap β :=
  if b.rank ≤ a.rank then node (b.rank + 1) x a b else node (a.rank + 1) x b a

/-- Merges a heap into another; it is given by its top, its left part and the way to merge its right
part. -/
def mergeNode (before : β → β → Bool) (x : β) (left : Heap β) (right : Heap β → Heap β) :
    Heap β → Heap β
  | empty => join x left (right empty)
  | node n y l r =>
    if before y x then join y l (mergeNode before x left right r)
    else join x left (right (node n y l r))

def merge (before : β → β → Bool) : Heap β → Heap β → Heap β
  | empty => id
  | node _ x l r => mergeNode before x l (merge before r)

def push (before : β → β → Bool) (h : Heap β) (x : β) : Heap β :=
  merge before (node 1 x empty empty) h

/-- An entry before which there is no other, and the rest. -/
def pop? (before : β → β → Bool) : Heap β → Option (β × Heap β)
  | empty => none
  | node _ x l r => some (x, merge before l r)

theorem toList_join (x : β) (a b : Heap β) :
    (join x a b).toList.Perm (x :: (a.toList ++ b.toList)) := by
  unfold join
  split
  · exact List.Perm.refl _
  · exact List.Perm.cons x List.perm_append_comm

theorem toList_mergeNode (before : β → β → Bool) (x : β) (left : Heap β) (right : Heap β → Heap β)
    (entries : List β) (hr : ∀ h, (right h).toList.Perm (entries ++ h.toList)) (h : Heap β) :
    (mergeNode before x left right h).toList.Perm
      (x :: (left.toList ++ entries) ++ h.toList) := by
  have hx (h : Heap β) : (join x left (right h)).toList.Perm
      (x :: (left.toList ++ entries) ++ h.toList) :=
    (toList_join x left (right h)).trans (by
      simpa using List.Perm.cons x ((hr h).append_left left.toList))
  induction h with
  | empty => exact hx empty
  | node n y l r _ ih =>
    unfold mergeNode
    split
    · refine (toList_join y l _).trans ?_
      refine (List.Perm.cons y (ih.append_left l.toList)).trans ?_
      refine (List.Perm.cons y (List.perm_append_comm_assoc _ _ _)).trans ?_
      exact List.perm_middle.symm
    · exact hx (node n y l r)

theorem toList_merge (before : β → β → Bool) (a b : Heap β) :
    (merge before a b).toList.Perm (a.toList ++ b.toList) := by
  induction a generalizing b with
  | empty => exact List.Perm.refl _
  | node n x l r _ ih => exact toList_mergeNode before x l (merge before r) r.toList ih b

theorem toList_push (before : β → β → Bool) (h : Heap β) (x : β) :
    (h.push before x).toList.Perm (x :: h.toList) :=
  toList_merge before (node 1 x empty empty) h

theorem toList_pop? {before : β → β → Bool} {h rest : Heap β} {x : β}
    (hp : h.pop? before = some (x, rest)) : h.toList.Perm (x :: rest.toList) := by
  cases h with
  | empty => simp [pop?] at hp
  | node n y l r =>
    simp only [pop?, Option.some.injEq, Prod.mk.injEq] at hp
    obtain ⟨rfl, rfl⟩ := hp
    exact List.Perm.cons y (toList_merge before l r).symm

end Heap

end Categorial
