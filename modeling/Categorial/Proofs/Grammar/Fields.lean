import Categorial.Grammar.Files
import Categorial.Proofs.Except
import Categorial.Proofs.Text.Records
set_option autoImplicit false

namespace Categorial

open Text (Visible)

/-- What a field of a record may be. -/
structure Field (s : String) : Prop where
  ne_nil : s.toList ≠ []
  visible : ∀ c ∈ s.toList, Visible c

instance : DecidablePred Field := fun s =>
  decidable_of_iff (s.toList ≠ [] ∧ (s.toList.all fun c => decide (Visible c)) = true) (by
    rw [List.all_eq_true]
    exact ⟨fun h => ⟨h.1, fun c hc => of_decide_eq_true (h.2 c hc)⟩,
      fun h => ⟨h.ne_nil, fun c hc => decide_eq_true (h.visible c hc)⟩⟩)

namespace Grammar

theorem not_mem_of_isBlank {s : List Char} {c : Char} (hs : ∀ d ∈ s, Visible d)
    (hc : Text.isBlank c = true) : c ∉ s := by
  intro hmem
  have hvisible := (hs c hmem).not_isBlank
  rw [hc] at hvisible
  cases hvisible

theorem mem_intercalate {β : Type} {sep : List β} {pieces : List (List β)} {x : β}
    (h : x ∈ sep.intercalate pieces) : x ∈ sep ∨ ∃ piece ∈ pieces, x ∈ piece := by
  induction pieces with
  | nil => simp at h
  | cons piece pieces ih =>
    cases pieces with
    | nil =>
      rw [List.intercalate_singleton] at h
      exact .inr ⟨piece, by simp, h⟩
    | cons next pieces =>
      rw [List.intercalate_cons_cons, List.mem_append, List.mem_append] at h
      rcases h with (hpiece | hsep) | hrest
      · exact .inr ⟨piece, by simp, hpiece⟩
      · exact .inl hsep
      · rcases ih hrest with hsep | ⟨p, hp, hmem⟩
        · exact .inl hsep
        · exact .inr ⟨p, by simp [hp], hmem⟩

theorem mem_intercalate_of_head {β : Type} {sep piece : List β} {pieces : List (List β)} {x : β}
    (h : x ∈ piece) : x ∈ sep.intercalate (piece :: pieces) := by
  cases pieces with
  | nil => simpa using h
  | cons next pieces =>
    rw [List.intercalate_cons_cons]
    simp [h]

/-- The line of a record. -/
def recordLine (fields : List String) : List Char := ['\t'].intercalate (fields.map String.toList)

theorem toList_record (fields : List String) : (record fields).toList = recordLine fields ++ ['\n'] := by
  simp [record, recordLine, tab, String.toList_intercalate]

theorem splitOn_recordLine {fields : List String} (hne : fields ≠ []) (h : ∀ f ∈ fields, Field f) :
    Text.splitOn '\t' (recordLine fields) = fields.map String.toList := by
  refine Text.splitOn_intercalate (by simpa using hne) fun piece hpiece => ?_
  obtain ⟨f, hf, rfl⟩ := List.mem_map.mp hpiece
  exact not_mem_of_isBlank (h f hf).visible rfl

theorem not_mem_recordLine {fields : List String} {c : Char} (h : ∀ f ∈ fields, Field f)
    (hc : Text.isBlank c = true) (hne : c ≠ '\t') : c ∉ recordLine fields := by
  intro hmem
  rcases mem_intercalate hmem with htab | ⟨piece, hpiece, hin⟩
  · exact hne (List.mem_singleton.mp htab)
  · obtain ⟨f, hf, rfl⟩ := List.mem_map.mp hpiece
    exact not_mem_of_isBlank (h f hf).visible hc hin

theorem trim_recordLine_ne_nil {fields : List String} (hne : fields ≠ []) (h : ∀ f ∈ fields, Field f) :
    Text.trim (recordLine fields) ≠ [] := by
  cases fields with
  | nil => exact absurd rfl hne
  | cons f fields =>
    obtain ⟨hfirst, hvisible⟩ := h f (by simp)
    obtain ⟨c, hc⟩ := List.exists_mem_of_ne_nil _ hfirst
    exact Text.trim_ne_nil (mem_intercalate_of_head hc) (hvisible c hc).not_isBlank

theorem filledLines_map_some {ls : List (List Char)} (h : ∀ line ∈ ls, Text.trim line ≠ []) :
    filledLines (ls.map some) = .ok ls := by
  induction ls with
  | nil => rfl
  | cons line ls ih =>
    have hrest := ih fun l hl => h l (by simp [hl])
    have hline : (Text.trim line).isEmpty = false := by simpa using h line (by simp)
    rw [List.map_cons, filledLines, hrest]
    simp [bind, Except.bind, hline]

/-- The lines of a file with one record for each entry of a list. -/
theorem filledLines_records {β : Type} {xs : List β} (fields : β → List String)
    (h : ∀ x ∈ xs, fields x ≠ [] ∧ ∀ f ∈ fields x, Field f) :
    filledLines (Text.linesOfString (String.join (xs.map fun x => record (fields x)))) =
      .ok (xs.map fun x => recordLine (fields x)) := by
  have hlist : (String.join (xs.map fun x => record (fields x))).toList =
      (xs.map fun x => recordLine (fields x)).flatMap (· ++ ['\n']) := by
    simp [String.toList_join, List.flatMap_map, toList_record]
  have hlines : Text.lines (String.join (xs.map fun x => record (fields x))).toList =
      xs.map fun x => recordLine (fields x) := by
    rw [hlist]
    refine Text.lines_flatMap fun line hline => ?_
    obtain ⟨x, hx, rfl⟩ := List.mem_map.mp hline
    exact ⟨not_mem_recordLine (h x hx).2 rfl (by decide), not_mem_recordLine (h x hx).2 rfl (by decide)⟩
  rw [Text.linesOfString, hlines]
  refine filledLines_map_some fun line hline => ?_
  obtain ⟨x, hx, rfl⟩ := List.mem_map.mp hline
  exact trim_recordLine_ne_nil (h x hx).1 (h x hx).2

theorem field_toString (n : Nat) : Field (toString n) where
  ne_nil := by
    rw [Text.toList_toString]
    exact Text.natDigits_ne_nil n
  visible c hc := by
    rw [Text.toList_toString] at hc
    exact Text.visible_of_isDigit (Text.isDigit_of_mem_natDigits hc)

theorem field_optional (n : Option Nat) : Field (optional n) := by
  cases n with
  | none => decide
  | some n => exact field_toString n

theorem toList_silentText {silent : List Nat} (h : silent ≠ []) :
    (silentText silent).toList = [','].intercalate (silent.map Text.natDigits) := by
  have hsome : silent.isEmpty = false := by simpa using h
  simp only [silentText, hsome, if_false, Bool.false_eq_true, String.toList_intercalate, List.map_map]
  congr 1
  exact List.map_congr_left fun n _ => Text.toList_toString n

theorem field_silentText (silent : List Nat) : Field (silentText silent) := by
  cases silent with
  | nil => decide
  | cons n silent =>
    have htext := toList_silentText (List.cons_ne_nil n silent)
    constructor
    · obtain ⟨c, hc⟩ := List.exists_mem_of_ne_nil _ (Text.natDigits_ne_nil n)
      rw [htext]
      exact List.ne_nil_of_mem (mem_intercalate_of_head hc)
    · intro c hc
      rw [htext] at hc
      rcases mem_intercalate hc with hcomma | ⟨piece, hpiece, hmem⟩
      · obtain rfl := List.mem_singleton.mp hcomma
        decide
      · obtain ⟨k, _, rfl⟩ := List.mem_map.mp hpiece
        exact Text.visible_of_isDigit (Text.isDigit_of_mem_natDigits hmem)

theorem field_code (t : RuleType) : Field t.code := by
  cases t <;> decide

theorem field_name (c : Combinator) : Field c.name := by
  cases c <;> decide

end Grammar

end Categorial
