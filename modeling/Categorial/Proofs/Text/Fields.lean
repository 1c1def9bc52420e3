import Categorial.Text.Blank
import Categorial.Proofs.Text.Records
import Mathlib.Data.List.TakeWhile
set_option autoImplicit false

namespace Categorial.Text

def Gap (s : List Char) : Prop := ∀ c ∈ s, isBlank c = true

section

variable {gap before t after s : List Char}

theorem gap_nil : Gap [] := nofun

theorem gap_space : Gap [' '] := by
  intro c hc
  obtain rfl := List.mem_singleton.mp hc
  rfl

theorem Gap.trimStart_append (h : Gap gap) (s : List Char) : trimStart (gap ++ s) = trimStart s :=
  List.dropWhile_append_of_pos h

theorem trimStart_eq_nil_iff : trimStart s = [] ↔ Gap s := List.dropWhile_eq_nil_iff

theorem Gap.trimEnd_append (h : Gap gap) (s : List Char) : trimEnd (s ++ gap) = trimEnd s := by
  have hreverse : ∀ c ∈ gap.reverse, isBlank c = true := fun c hc => h c (List.mem_reverse.mp hc)
  rw [trimEnd, List.reverse_append, List.dropWhile_append_of_pos hreverse, trimEnd]

theorem exists_gap_trimStart (s : List Char) : ∃ gap, Gap gap ∧ s = gap ++ trimStart s :=
  ⟨s.takeWhile isBlank, fun _ hc => List.all_eq_true.mp List.all_takeWhile _ hc,
    List.takeWhile_append_dropWhile.symm⟩

theorem exists_gap_trimEnd (s : List Char) : ∃ gap, Gap gap ∧ s = trimEnd s ++ gap := by
  obtain ⟨gap, hgap, hs⟩ := exists_gap_trimStart s.reverse
  refine ⟨gap.reverse, fun c hc => hgap c (List.mem_reverse.mp hc), ?_⟩
  calc s = s.reverse.reverse := s.reverse_reverse.symm
    _ = (gap ++ trimStart s.reverse).reverse := by rw [← hs]
    _ = trimEnd s ++ gap.reverse := by rw [List.reverse_append, trimEnd, trimStart]

theorem exists_gap_trim (s : List Char) :
    ∃ before after, Gap before ∧ Gap after ∧ s = before ++ trim s ++ after := by
  obtain ⟨before, hbefore, hs⟩ := exists_gap_trimStart s
  obtain ⟨after, hafter, hrest⟩ := exists_gap_trimEnd (trimStart s)
  exact ⟨before, after, hbefore, hafter, by rw [trim, List.append_assoc, ← hrest, ← hs]⟩

theorem trim_between (hbefore : Gap before) (hafter : Gap after) (hne : t ≠ [])
    (ht : ∀ c ∈ t, isBlank c = false) : trim (before ++ t ++ after) = t := by
  have hstart : trimStart (t ++ after) = t ++ after := by
    cases t with
    | nil => exact absurd rfl hne
    | cons c t => exact trimStart_cons_of_not_isBlank (t ++ after) (ht c (by simp))
  have hend : trimEnd t = t := by
    have hwhole := trim_of_not_isBlank ht
    cases t with
    | nil => exact absurd rfl hne
    | cons c t => rwa [trim, trimStart_cons_of_not_isBlank t (ht c (by simp))] at hwhole
  rw [trim, List.append_assoc, hbefore.trimStart_append, hstart, hafter.trimEnd_append, hend]

/-- What is left of a list begins with something that was not to be dropped. -/
theorem not_of_mem_head?_dropWhile {p : Char → Bool} : ∀ c ∈ (s.dropWhile p).head?, p c = false := by
  intro c hc
  have hhead := List.head?_dropWhile_not p s
  rw [Option.mem_def.mp hc] at hhead
  exact hhead

end

/-- A field as it stands in a line. -/
structure Solid (s : List Char) : Prop where
  ne_nil : s ≠ []
  not_isBlank : ∀ c ∈ s, isBlank c = false

theorem solid_iff {s : List Char} : Solid s ↔ s ≠ [] ∧ s.any isBlank = false := by
  simp only [List.any_eq_false, Bool.not_eq_true]
  exact ⟨fun h => ⟨h.ne_nil, h.not_isBlank⟩, fun ⟨hne, h⟩ => ⟨hne, h⟩⟩

instance (s : List Char) : Decidable (Solid s) := decidable_of_iff _ solid_iff.symm

/-- The line has these fields, with a gap before the first, gaps between them that are not empty, and a gap behind the
last one. -/
inductive Spaced : List (List Char) → List Char → Prop
  | done {gap : List Char} : Gap gap → Spaced [] gap
  | field {gap piece s : List Char} {pieces : List (List Char)} : Gap gap → Solid piece → Spaced pieces s →
      (∀ c ∈ s.head?, isBlank c = true) → Spaced (piece :: pieces) (gap ++ piece ++ s)

theorem Gap.fieldsFrom_eq {gap : List Char} (h : Gap gap) (current : List Char) :
    fieldsFrom current gap = fieldsFrom current [] := by
  induction gap generalizing current with
  | nil => rfl
  | cons c gap ih =>
    obtain ⟨hc, hgap⟩ := List.forall_mem_cons.mp h
    simp only [fieldsFrom, if_pos hc, ih hgap]
    cases current <;> rfl

theorem Gap.fieldsFrom_append {gap : List Char} (h : Gap gap) (current s : List Char) :
    fieldsFrom current (s ++ gap) = fieldsFrom current s := by
  induction s generalizing current with
  | nil => exact h.fieldsFrom_eq current
  | cons c s ih => simp only [List.cons_append, fieldsFrom, ih]

theorem Gap.fields_append {gap : List Char} (h : Gap gap) (s : List Char) : fields (gap ++ s) = fields s := by
  induction gap with
  | nil => rfl
  | cons c gap ih =>
    obtain ⟨hc, hgap⟩ := List.forall_mem_cons.mp h
    rw [List.cons_append, fields_cons_of_isBlank _ hc, ih hgap]

theorem Solid.fields_append {piece : List Char} (h : Solid piece) {s : List Char}
    (hs : ∀ c ∈ s.head?, isBlank c = true) : fields (piece ++ s) = piece :: fields s := by
  have hfull : piece.reverse.isEmpty = false := by simpa using h.ne_nil
  rw [fields, fieldsFrom_append h.not_isBlank, List.append_nil]
  cases s with
  | nil => simp [fieldsFrom, h.ne_nil]
  | cons c s =>
    have hc : isBlank c = true := hs c rfl
    rw [fields_cons_of_isBlank s hc, fieldsFrom, if_pos hc, hfull, List.reverse_reverse]
    rfl

theorem Spaced.fields_eq {pieces : List (List Char)} {s : List Char} (h : Spaced pieces s) : fields s = pieces := by
  induction h with
  | done hgap => exact hgap.fieldsFrom_eq []
  | field hgap hpiece _ hnext ih => rw [List.append_assoc, hgap.fields_append, hpiece.fields_append hnext, ih]

theorem Spaced.gap_append {gap s : List Char} {pieces : List (List Char)} (h : Spaced pieces s) (hgap : Gap gap) :
    Spaced pieces (gap ++ s) := by
  cases h with
  | done hgap' => exact .done (List.forall_mem_append.mpr ⟨hgap, hgap'⟩)
  | field hgap' hpiece hrest hnext =>
    rw [← List.append_assoc, ← List.append_assoc]
    exact .field (List.forall_mem_append.mpr ⟨hgap, hgap'⟩) hpiece hrest hnext

theorem spaced_intercalate {pieces : List (List Char)} (h : ∀ piece ∈ pieces, Solid piece) :
    Spaced pieces ([' '].intercalate pieces) := by
  induction pieces with
  | nil => exact .done gap_nil
  | cons piece pieces ih =>
    obtain ⟨hpiece, hrest⟩ := List.forall_mem_cons.mp h
    cases pieces with
    | nil =>
      have hone := Spaced.field gap_nil hpiece (.done gap_nil) nofun
      simpa using hone
    | cons next pieces =>
      rw [List.intercalate_cons_cons, List.append_assoc]
      exact .field gap_nil hpiece ((ih hrest).gap_append gap_space) (by rintro _ ⟨⟩; rfl)

/-- With the ending of a line no field is lost. -/
theorem fields_dropReturn (line : List Char) : fields (dropReturn line) = fields line := by
  unfold dropReturn
  split
  · rename_i rest hrest
    have hreturn : Gap ['\r'] := by
      intro c hc
      obtain rfl := List.mem_singleton.mp hc
      rfl
    have hline : line = rest.reverse ++ ['\r'] := by
      rw [← List.reverse_reverse line, hrest, List.reverse_cons]
    rw [hline]
    exact (hreturn.fieldsFrom_append [] rest.reverse).symm
  · rfl

end Categorial.Text
