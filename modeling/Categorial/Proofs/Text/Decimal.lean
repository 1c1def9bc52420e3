import Categorial.Decimal.Reader
import Categorial.Proofs.Text.Fields
import Mathlib.Data.List.TakeDrop
set_option autoImplicit false

namespace Categorial.Decimal

open Text (Visible visible_of_isDigit)

theorem takeDigits_append (s : List Char) :
    s = (takeDigits s).1 ++ (takeDigits s).2 ∧ ∀ c ∈ (takeDigits s).1, Visible c := by
  rw [takeDigits, List.span_eq_takeWhile_dropWhile]
  exact ⟨List.takeWhile_append_dropWhile.symm, fun c hc => visible_of_isDigit (List.mem_takeWhile_imp hc)⟩

theorem visible_of_exponent? {s : List Char} {e : Int} (h : exponent? s = some e) : ∀ c ∈ s, Visible c := by
  have hdigits {r : List Char} (hrest : (takeDigits r).2 = []) : ∀ c ∈ r, Visible c := by
    obtain ⟨hsplit, hvisible⟩ := takeDigits_append r
    rw [hrest, List.append_nil] at hsplit
    rwa [← hsplit] at hvisible
  cases s with
  | nil => simp
  | cons c s =>
    unfold exponent? at h
    dsimp only at h
    split at h
    · rename_i hc
      refine List.forall_mem_cons.mpr ⟨by rcases hc with rfl | rfl <;> decide, ?_⟩
      split at h
      · cases h
      · rename_i hnumber
        -- the digits begin behind the sign, if there is one
        split at hnumber
        · exact List.forall_mem_cons.mpr ⟨by decide, hdigits (by rw [hnumber])⟩
        · exact List.forall_mem_cons.mpr ⟨by decide, hdigits (by rw [hnumber])⟩
        · exact hdigits (by rw [hnumber])
      · cases h
    · cases h

theorem visible_of_literal? {s : List Char} {l : Literal} (h : literal? s = some l) : ∀ c ∈ s, Visible c := by
  obtain ⟨hsplit, hwhole⟩ := takeDigits_append s
  rw [hsplit]
  refine List.forall_mem_append.mpr ⟨hwhole, ?_⟩
  unfold literal? at h
  dsimp only at h
  split at h
  · rename_i r hpoint
    obtain ⟨hsplit', hplaces⟩ := takeDigits_append r
    rw [hpoint, hsplit']
    split at h
    · cases h
    · obtain ⟨e, he, -⟩ := Option.map_eq_some_iff.mp h
      exact List.forall_mem_cons.mpr
        ⟨by decide, List.forall_mem_append.mpr ⟨hplaces, visible_of_exponent? he⟩⟩
  · split at h
    · cases h
    · obtain ⟨e, he, -⟩ := Option.map_eq_some_iff.mp h
      exact visible_of_exponent? he

theorem visible_of_toLower {c : Char} (h : Visible c.toLower) : Visible c := by
  unfold Char.toLower at h
  split at h
  · rename_i hupper
    obtain ⟨hlow, hhigh⟩ := hupper
    have hA : 'A'.val.toNat = 65 := rfl
    have hZ : 'Z'.val.toNat = 90 := rfl
    rw [ge_iff_le, UInt32.le_iff_toNat_le] at hlow
    rw [UInt32.le_iff_toNat_le] at hhigh
    have hval : c.toNat = c.val.toNat := rfl
    simp only [Visible]
    omega
  · exact h

theorem visible_of_magnitude? {s : List Char} {x : Double} (h : magnitude? s = some x) :
    ∀ c ∈ s, Visible c := by
  have hname {name : String} (heq : String.ofList (s.map Char.toLower) = name)
      (hvisible : name.toList.all fun c => decide (Visible c)) : ∀ c ∈ s, Visible c := by
    intro c hc
    have hlower : c.toLower ∈ name.toList := by
      rw [← heq, String.toList_ofList]
      exact List.mem_map_of_mem hc
    exact visible_of_toLower (of_decide_eq_true (List.all_eq_true.mp hvisible _ hlower))
  unfold magnitude? at h
  dsimp only at h
  split at h
  · rename_i heq
    rcases heq with heq | heq
    · exact hname heq (by decide)
    · exact hname heq (by decide)
  · split at h
    · rename_i heq
      exact hname heq (by decide)
    · obtain ⟨l, hl, -⟩ := Option.map_eq_some_iff.mp h
      exact visible_of_literal? hl

theorem solid_of_read {s : List Char} {x : Double} (h : read s = .ok x) : Text.Solid s := by
  suffices hvisible : s ≠ [] ∧ ∀ c ∈ s, Visible c from ⟨hvisible.1, fun c hc => (hvisible.2 c hc).not_isBlank⟩
  have hok {r : List Char} {f : Double → Double} (h : (magnitude? r).elim (.error .invalid) (fun x => .ok (f x)) =
      (.ok x : Except ReadError Double)) : ∀ c ∈ r, Visible c := by
    cases hr : magnitude? r with
    | none =>
      rw [hr] at h
      cases h
    | some y => exact visible_of_magnitude? hr
  unfold read at h
  split at h
  · cases h
  · exact ⟨List.cons_ne_nil _ _, List.forall_mem_cons.mpr ⟨by decide, hok h⟩⟩
  · exact ⟨List.cons_ne_nil _ _, List.forall_mem_cons.mpr ⟨by decide, hok (f := id) h⟩⟩
  · rename_i hne _ _
    exact ⟨hne, hok (f := id) h⟩

end Categorial.Decimal
