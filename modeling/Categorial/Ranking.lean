set_option autoImplicit false

/-!
Lists whose entries are computed when they are asked for, and only once. They hold more results than
anyone will look at, in the order in which they are wanted. Every operation is that on the list of all
entries, so that the time of the computation changes nothing.
-/

namespace Categorial

inductive Ranking (β : Type) where
  | nil
  | cons (first : β) (rest : Thunk (Ranking β))

namespace Ranking

variable {β : Type}

def toList : Ranking β → List β
  | nil => []
  | cons x rest => x :: toList rest.get

def head? : Ranking β → Option β
  | nil => none
  | cons x _ => some x

def tail : Ranking β → Ranking β
  | nil => nil
  | cons _ rest => rest.get

/-- Puts the first `n` entries behind those that are there; nothing after them is computed. -/
def takeInto (taken : Array β) : Nat → Ranking β → Array β
  | 0, _ => taken
  | _ + 1, nil => taken
  | n + 1, cons x rest => takeInto (taken.push x) n rest.get

def take (n : Nat) (r : Ranking β) : List β := (takeInto #[] n r).toList

@[simp] theorem head?_toList (r : Ranking β) : r.toList.head? = r.head? := by
  cases r <;> simp [toList, head?]

@[simp] theorem tail_toList (r : Ranking β) : r.toList.tail = r.tail.toList := by
  cases r <;> simp [toList, tail]

theorem takeInto_eq (taken : Array β) (n : Nat) (r : Ranking β) :
    (takeInto taken n r).toList = taken.toList ++ r.toList.take n := by
  induction n generalizing taken r with
  | zero => simp [takeInto]
  | succ n ih =>
    cases r with
    | nil => simp [takeInto, toList]
    | cons x rest => simp [takeInto, toList, ih]

theorem take_eq (n : Nat) (r : Ranking β) : r.take n = r.toList.take n := by
  simp [take, takeInto_eq]

end Ranking

end Categorial
