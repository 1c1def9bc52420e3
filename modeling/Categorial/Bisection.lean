set_option autoImplicit false

/-!
Looking by halving for the place in a list where a predicate stops to hold. If it holds on a first part
of the list and on nothing behind, that place is where the first part ends. For any other predicate it
is still determined by the order of the questions: each is asked of the middle of what is left, and what
is left is its upper half after a yes and its lower half after a no.
-/

namespace Categorial

/-- Halves the places from `base` on, of which there are `size`, until one is left. -/
def narrow (holds : Nat → Bool) : Nat → Nat → Nat → Nat
  | 0, base, _ => base
  | fuel + 1, base, size =>
    if size ≤ 1 then if holds base then base + 1 else base
    else
      let half := size / 2
      narrow holds fuel (if holds (base + half) then base + half else base) (size - half)

def turningPoint {β : Type} (p : β → Bool) (xs : List β) : Nat :=
  narrow (fun i => (xs[i]?).any p) xs.length 0 xs.length

theorem narrow_eq (holds : Nat → Bool) (turn : Nat) : ∀ fuel base size : Nat, size ≤ fuel → 0 < size →
    base ≤ turn → turn ≤ base + size →
    (∀ i, base ≤ i → i < base + size → (holds i = true ↔ i < turn)) →
    narrow holds fuel base size = turn := by
  intro fuel
  induction fuel with
  | zero => intro base size h0 h1; omega
  | succ fuel ih =>
    intro base size hsize hpos hlow hhigh hturn
    unfold narrow
    by_cases hone : size ≤ 1
    · have h := hturn base (Nat.le_refl _) (by omega)
      by_cases hb : holds base = true
      · have := h.mp hb
        simp only [hone, hb, if_true]
        omega
      · have hle : ¬ base < turn := fun hlt => hb (h.mpr hlt)
        simp only [hone, hb, if_true]
        simp only [Bool.false_eq_true, if_false]
        omega
    · have h := hturn (base + size / 2) (by omega) (by omega)
      simp only [hone, if_false]
      by_cases hb : holds (base + size / 2) = true
      · have := h.mp hb
        simp only [hb, if_true]
        exact ih _ _ (by omega) (by omega) (by omega) (by omega)
          fun i hi hj => hturn i (by omega) (by omega)
      · have hle : ¬ base + size / 2 < turn := fun hlt => hb (h.mpr hlt)
        simp only [hb, Bool.false_eq_true, if_false]
        exact ih _ _ (by omega) (by omega) (by omega) (by omega)
          fun i hi hj => hturn i (by omega) (by omega)

theorem turningPoint_append {β : Type} (p : β → Bool) (xs ys : List β) (hx : ∀ x ∈ xs, p x = true)
    (hy : ∀ y ∈ ys, p y = false) : turningPoint p (xs ++ ys) = xs.length := by
  unfold turningPoint
  by_cases hnil : xs ++ ys = []
  · obtain ⟨rfl, rfl⟩ := List.append_eq_nil_iff.mp hnil
    rfl
  · refine narrow_eq _ _ _ _ _ (Nat.le_refl _) (List.length_pos_iff.mpr hnil) (Nat.zero_le _)
      (by simp) ?_
    intro i _ hi
    by_cases hlt : i < xs.length
    · simp [List.getElem?_append_left hlt, hlt]
      exact hx _ (List.getElem_mem hlt)
    · have hle : xs.length ≤ i := Nat.le_of_not_lt hlt
      have hlen : i - xs.length < ys.length := by
        simp at hi
        omega
      simp [List.getElem?_append_right hle, List.getElem?_eq_getElem hlen, hlt]
      exact hy _ (List.getElem_mem hlen)

end Categorial
