import Categorial.Treebank.Reader
import Categorial.Proofs.Category.Spelling
set_option autoImplicit false

namespace Categorial

namespace BankTree

/-- What stands between blanks and angle brackets. -/
abbrev Field := { f : List Char // f ≠ [] ∧ ∀ c ∈ f, isFieldChar c = true }

def Field.ofList (f : List Char) (h : f ≠ [] ∧ f.all isFieldChar = true) : Field :=
  ⟨f, h.1, List.all_eq_true.mp h.2⟩

inductive Piece where
  | sign (c : Char)
  | field (f : Field)

/-- The pieces, each behind a gap, make up the text as far as the rest. A field goes on until a blank or an angle
bracket, so there are blanks between two fields. -/
inductive Takes : List Piece → List Char → List Char → Prop
  | nil {s : List Char} : Takes [] s s
  | sign {gap s rest : List Char} {c : Char} {ps : List Piece} : Text.Gap gap → Takes ps s rest →
      Takes (.sign c :: ps) (gap ++ c :: s) rest
  | field {gap s rest : List Char} {f : Field} {ps : List Piece} : Text.Gap gap →
      (∀ c ∈ s.head?, isFieldChar c = false) → Takes ps s rest → Takes (.field f :: ps) (gap ++ (f.val ++ s)) rest

/-- The pieces make up the text, with gaps between and around them. -/
def Spaced (ps : List Piece) (s : List Char) : Prop := ∃ rest, Takes ps s rest ∧ Text.Gap rest

section

variable {ps qs : List Piece} {s rest gap : List Char} {c : Char}

theorem takes_nil : Takes [] s rest ↔ s = rest := by
  constructor
  · intro h
    cases h
    rfl
  · rintro rfl
    exact .nil

theorem takes_append : Takes (ps ++ qs) s rest ↔ ∃ mid, Takes ps s mid ∧ Takes qs mid rest := by
  constructor
  · intro h
    induction ps generalizing s with
    | nil => exact ⟨s, .nil, h⟩
    | cons p ps ih =>
      cases h with
      | sign hgap h =>
        obtain ⟨mid, hps, hqs⟩ := ih h
        exact ⟨mid, .sign hgap hps, hqs⟩
      | field hgap hend h =>
        obtain ⟨mid, hps, hqs⟩ := ih h
        exact ⟨mid, .field hgap hend hps, hqs⟩
  · rintro ⟨mid, hps, hqs⟩
    induction hps with
    | nil => exact hqs
    | sign hgap _ ih => exact .sign hgap (ih hqs)
    | field hgap hend _ ih => exact .field hgap hend (ih hqs)

theorem Takes.length_le (h : Takes ps s rest) : rest.length + ps.length ≤ s.length := by
  induction h with
  | nil => simp
  | sign _ _ ih =>
    simp only [List.length_cons, List.length_append]
    omega
  | @field gap s rest f ps _ _ _ ih =>
    have hpos := List.length_pos_iff.mpr f.property.1
    simp only [List.length_cons, List.length_append]
    omega

-- Readers take a piece.

theorem takes_sign (hc : Text.isBlank c = false) :
    Takes (.sign c :: ps) s rest ↔ ∃ mid, skipTo c s = .ok mid ∧ Takes ps mid rest := by
  constructor
  · intro h
    cases h with
    | @sign gap mid _ _ _ hgap h =>
      refine ⟨mid, ?_, h⟩
      rw [skipTo, hgap.trimStart_append, Text.trimStart_cons_of_not_isBlank mid hc]
      simp [Category.expect]
  · rintro ⟨mid, hread, h⟩
    obtain ⟨gap, hgap, hs⟩ := Text.exists_gap_trimStart s
    rw [hs, Category.eq_of_expect hread]
    exact .sign hgap h

theorem not_isBlank_of_isFieldChar (h : isFieldChar c = true) : Text.isBlank c = false := by
  simp only [isFieldChar, Bool.and_eq_true, Bool.not_eq_true'] at h
  exact h.1.1

theorem readField_ok_iff {f : List Char} : readField s = .ok (f, rest) ↔
    ∃ gap, Text.Gap gap ∧ f ≠ [] ∧ (∀ c ∈ f, isFieldChar c = true) ∧ (∀ c ∈ rest.head?, isFieldChar c = false) ∧
      s = gap ++ (f ++ rest) := by
  constructor
  · intro h
    obtain ⟨gap, hgap, hs⟩ := Text.exists_gap_trimStart s
    unfold readField at h
    simp only at h
    split at h
    · cases h
    · rename_i hne
      cases h
      refine ⟨gap, hgap, hne, fun _ => Category.mem_takeWhile, fun _ => Text.not_of_mem_head?_dropWhile _, ?_⟩
      rwa [List.takeWhile_append_dropWhile]
  · rintro ⟨gap, hgap, hne, hchars, hend, rfl⟩
    obtain ⟨htake, hdrop⟩ := Category.takeWhile_all_append hchars hend
    cases f with
    | nil => exact absurd rfl hne
    | cons c f =>
      have htrim : Text.trimStart (c :: f ++ rest) = c :: f ++ rest :=
        Text.trimStart_cons_of_not_isBlank (f ++ rest) (not_isBlank_of_isFieldChar (hchars c (by simp)))
      simp only [readField, hgap.trimStart_append, htrim, htake, hdrop]

theorem exists_field {f : List Char} (h : readField s = .ok (f, rest)) : ∃ f' : Field, f'.val = f := by
  obtain ⟨_, _, hne, hchars, _⟩ := readField_ok_iff.mp h
  exact ⟨⟨f, hne, hchars⟩, rfl⟩

theorem takes_field {f : Field} :
    Takes (.field f :: ps) s rest ↔ ∃ mid, readField s = .ok (f.val, mid) ∧ Takes ps mid rest := by
  constructor
  · intro h
    cases h with
    | @field gap mid _ _ _ hgap hend h =>
      exact ⟨mid, readField_ok_iff.mpr ⟨gap, hgap, f.property.1, f.property.2, hend, rfl⟩, h⟩
  · rintro ⟨mid, hread, h⟩
    obtain ⟨gap, hgap, _, _, hend, rfl⟩ := readField_ok_iff.mp hread
    exact .field hgap hend h

end

end BankTree

end Categorial
