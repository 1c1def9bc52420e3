import Categorial.Text.Lines
import Categorial.Text.Numeral
import Mathlib.Data.List.Basic
set_option autoImplicit false

namespace Categorial.Text

/-- What stands in the fields of a record: characters of one byte that are not blank. -/
def Visible (c : Char) : Prop := 0x21 ≤ c.toNat ∧ c.toNat ≤ 0x7E

instance : DecidablePred Visible := fun c =>
  inferInstanceAs (Decidable (0x21 ≤ c.toNat ∧ c.toNat ≤ 0x7E))

theorem Visible.not_isBlank {c : Char} (h : Visible c) : isBlank c = false := by
  obtain ⟨hlow, hhigh⟩ := h
  simp only [isBlank, Bool.or_eq_false_iff, Bool.and_eq_false_iff, decide_eq_false_iff_not,
    beq_eq_false_iff_ne]
  omega

theorem visible_of_isDigit {c : Char} (h : c.isDigit = true) : Visible c := by
  have hrange := Char.isDigit_iff_toNat.mp h
  have h0 : '0'.toNat = 48 := rfl
  have h9 : '9'.toNat = 57 := rfl
  simp only [Visible]
  omega

theorem splitOn_of_not_mem {sep : Char} {s : List Char} (h : sep ∉ s) : splitOn sep s = [s] := by
  induction s with
  | nil => rfl
  | cons c s ih =>
    obtain ⟨hne, hrest⟩ := not_or.mp (mt List.mem_cons.mpr h)
    rw [splitOn, if_neg fun heq => hne heq.symm, ih hrest]

theorem splitOn_append_cons {sep : Char} {piece : List Char} (h : sep ∉ piece) (s : List Char) :
    splitOn sep (piece ++ sep :: s) = piece :: splitOn sep s := by
  induction piece with
  | nil => simp [splitOn]
  | cons c piece ih =>
    obtain ⟨hne, hrest⟩ := not_or.mp (mt List.mem_cons.mpr h)
    rw [List.cons_append, splitOn, if_neg fun heq => hne heq.symm, ih hrest]

/-- What is behind the last separator is the last piece. -/
theorem splitOn_append_of_not_mem {sep : Char} {piece : List Char} (h : sep ∉ piece) (s : List Char) :
    splitOn sep (s ++ sep :: piece) = splitOn sep s ++ [piece] := by
  induction s with
  | nil => simp [splitOn, splitOn_of_not_mem h]
  | cons c s ih =>
    rw [List.cons_append, splitOn, splitOn, ih]
    split
    · rfl
    · cases hs : splitOn sep s with
      | nil => exact absurd hs (splitOn_ne_nil sep s)
      | cons first rest => rfl

theorem splitOn_intercalate {sep : Char} {pieces : List (List Char)} (hne : pieces ≠ [])
    (h : ∀ piece ∈ pieces, sep ∉ piece) : splitOn sep ([sep].intercalate pieces) = pieces := by
  induction pieces with
  | nil => exact absurd rfl hne
  | cons piece pieces ih =>
    have hpiece := h piece (by simp)
    cases pieces with
    | nil => simpa using splitOn_of_not_mem hpiece
    | cons next pieces =>
      rw [List.intercalate_cons_cons, List.append_assoc, List.singleton_append,
        splitOn_append_cons hpiece, ih (by simp) fun p hp => h p (by simp [hp])]

theorem dropReturn_of_not_mem {line : List Char} (h : '\r' ∉ line) : dropReturn line = line := by
  unfold dropReturn
  split
  · rename_i rest hrest
    have hmem : '\r' ∈ line.reverse := by simp [hrest]
    exact absurd (List.mem_reverse.mp hmem) h
  · rfl

theorem linesFrom_append {line : List Char} (h : '\n' ∉ line) (s : List Char) : ∀ current,
    linesFrom current (line ++ s) = linesFrom (line.reverse ++ current) s := by
  induction line with
  | nil => exact fun _ => rfl
  | cons c line ih =>
    intro current
    obtain ⟨hne, hrest⟩ := not_or.mp (mt List.mem_cons.mpr h)
    rw [List.cons_append, linesFrom, ih hrest]
    · simp
    · exact fun heq => hne heq.symm

/-- The first line, up to its end. -/
theorem lines_append_cons {line : List Char} (h : '\n' ∉ line) (s : List Char) :
    lines (line ++ '\n' :: s) = dropReturn line :: lines s := by
  rw [lines, linesFrom_append h, List.append_nil, linesFrom, List.reverse_reverse]
  rfl

/-- Lines with their ends, and a last one that may be empty. -/
theorem lines_flatMap_append {ls : List (List Char)} {last : List Char} (h : ∀ line ∈ ls, '\n' ∉ line)
    (hlast : '\n' ∉ last) : lines (ls.flatMap (· ++ ['\n']) ++ last) =
      ls.map dropReturn ++ if last = [] then [] else [last] := by
  induction ls with
  | nil =>
    have hone := linesFrom_append hlast [] []
    rw [List.append_nil, List.append_nil] at hone
    rw [List.flatMap_nil, List.nil_append, lines, hone, linesFrom]
    by_cases hempty : last = [] <;> simp [hempty]
  | cons line ls ih =>
    have hrest := ih fun l hl => h l (by simp [hl])
    rw [List.flatMap_cons, List.append_assoc, List.append_assoc, List.singleton_append,
      lines_append_cons (h line (by simp)), hrest, List.map_cons, List.cons_append]

/-- Lines without line feeds and carriage returns, each with its end. -/
theorem lines_flatMap {ls : List (List Char)} (h : ∀ line ∈ ls, '\n' ∉ line ∧ '\r' ∉ line) :
    lines (ls.flatMap (· ++ ['\n'])) = ls := by
  have hlines := lines_flatMap_append (fun line hl => (h line hl).1) (List.not_mem_nil : '\n' ∉ [])
  have hreturn : ls.map dropReturn = ls :=
    (List.map_congr_left fun line hl => dropReturn_of_not_mem (h line hl).2).trans (List.map_id' ls)
  rw [List.append_nil, if_pos rfl, List.append_nil, hreturn] at hlines
  exact hlines

theorem fieldsFrom_append {field : List Char} (h : ∀ c ∈ field, isBlank c = false) (s : List Char) : ∀ current,
    fieldsFrom current (field ++ s) = fieldsFrom (field.reverse ++ current) s := by
  induction field with
  | nil => exact fun _ => rfl
  | cons c field ih =>
    intro current
    rw [List.cons_append, fieldsFrom, if_neg (by simp [h c (by simp)]), ih fun d hd => h d (by simp [hd])]
    simp

theorem fields_intercalate {pieces : List (List Char)}
    (h : ∀ piece ∈ pieces, piece ≠ [] ∧ ∀ c ∈ piece, isBlank c = false) :
    fields ([' '].intercalate pieces) = pieces := by
  induction pieces with
  | nil => rfl
  | cons piece pieces ih =>
    obtain ⟨hne, hblank⟩ := h piece (by simp)
    have hfull : piece.reverse.isEmpty = false := by simpa using hne
    cases pieces with
    | nil =>
      have hone := fieldsFrom_append hblank [] []
      rw [List.append_nil, List.append_nil] at hone
      rw [List.intercalate_singleton, fields, hone, fieldsFrom, hfull]
      simp
    | cons next pieces =>
      rw [List.intercalate_cons_cons, List.append_assoc, List.singleton_append, fields,
        fieldsFrom_append hblank, List.append_nil, fieldsFrom, if_pos (by rfl), hfull]
      simp only [Bool.false_eq_true, if_false, List.reverse_reverse]
      exact congrArg _ (ih fun p hp => h p (by simp [hp]))

theorem trim_of_not_isBlank {s : List Char} (h : ∀ c ∈ s, isBlank c = false) : trim s = s := by
  have hstart : trimStart s = s := by
    cases s with
    | nil => rfl
    | cons c s => exact trimStart_cons_of_not_isBlank s (h c (by simp))
  rw [trim, hstart, trimEnd]
  cases hs : s.reverse with
  | nil => simpa using hs.symm
  | cons c t =>
    have hc : isBlank c = false := h c (List.mem_reverse.mp (by simp [hs]))
    rw [List.dropWhile_cons_of_neg (by simp [hc]), ← hs, List.reverse_reverse]

theorem mem_dropWhile_of_not {p : Char → Bool} {s : List Char} {c : Char} (hc : c ∈ s)
    (h : p c = false) : c ∈ s.dropWhile p := by
  induction s with
  | nil => exact hc
  | cons d s ih =>
    cases hd : p d with
    | false => rwa [List.dropWhile_cons_of_neg (by simp [hd])]
    | true =>
      rw [List.dropWhile_cons_of_pos hd]
      rcases List.mem_cons.mp hc with rfl | hmem
      · simp [hd] at h
      · exact ih hmem

theorem trim_ne_nil {s : List Char} {c : Char} (hc : c ∈ s) (h : isBlank c = false) : trim s ≠ [] := by
  have hstart : c ∈ trimStart s := mem_dropWhile_of_not hc h
  have hend : c ∈ trim s := by
    rw [trim, trimEnd]
    exact List.mem_reverse.mpr (mem_dropWhile_of_not (List.mem_reverse.mpr hstart) h)
  exact List.ne_nil_of_mem hend

theorem isDigit_of_mem_natDigits {n : Nat} {c : Char} (h : c ∈ natDigits n) : c.isDigit = true :=
  Nat.isDigit_of_mem_toDigits (by decide) (by decide) h

theorem natDigits_ne_nil (n : Nat) : natDigits n ≠ [] := Nat.toDigits_ne_nil

theorem not_mem_natDigits {n : Nat} {c : Char} (h : c.isDigit = false) : c ∉ natDigits n := by
  intro hmem
  rw [isDigit_of_mem_natDigits hmem] at h
  cases h

theorem natDigits_ne_singleton {n : Nat} {c : Char} (h : c.isDigit = false) : natDigits n ≠ [c] := by
  intro heq
  exact not_mem_natDigits (n := n) h (by simp [heq])

theorem toList_toString (n : Nat) : (toString n).toList = natDigits n := by
  rw [Nat.toString_eq_ofList_toDigits, String.toList_ofList, natDigits]

theorem le_ofDigitChars (s : List Char) (n : Nat) : n ≤ Nat.ofDigitChars 10 s n := by
  induction s generalizing n with
  | nil => simp
  | cons c s ih =>
    rw [Nat.ofDigitChars_cons]
    have hrest := ih (10 * n + (c.toNat - '0'.toNat))
    omega

theorem readDigits_ofDigitChars {bound : Nat} {fault : NumeralError} {s : List Char}
    (hs : ∀ c ∈ s, c.isDigit = true) : ∀ {n : Nat}, Nat.ofDigitChars 10 s n ≤ bound →
    readDigits bound fault n s = .ok (Nat.ofDigitChars 10 s n) := by
  induction s with
  | nil => exact fun _ => by simp [readDigits]
  | cons c s ih =>
    intro n hbound
    rw [Nat.ofDigitChars_cons] at hbound ⊢
    have hle := le_ofDigitChars s (10 * n + (c.toNat - '0'.toNat))
    rw [readDigits, digit?, if_pos (hs c (by simp))]
    simp only
    rw [if_neg (by omega), ih (fun d hd => hs d (by simp [hd])) hbound]

theorem readDigits_natDigits {n bound : Nat} (fault : NumeralError) (h : n ≤ bound) :
    readDigits bound fault 0 (natDigits n) = .ok n := by
  have hvalue : Nat.ofDigitChars 10 (natDigits n) 0 = n := Nat.ofDigitChars_ten_toDigits
  rw [readDigits_ofDigitChars (fun c hc => isDigit_of_mem_natDigits hc) (by rw [hvalue]; exact h), hvalue]

theorem readNat_natDigits {n bound : Nat} (h : n ≤ bound) : readNat bound (natDigits n) = .ok n := by
  have hread := readDigits_natDigits .tooLarge h
  have hplus : '+' ∉ natDigits n := not_mem_natDigits rfl
  cases hdigits : natDigits n with
  | nil => exact absurd hdigits (natDigits_ne_nil n)
  | cons c s =>
    rw [hdigits] at hread hplus
    have hc : c ≠ '+' := fun heq => hplus (by simp [heq])
    rw [readNat]
    · exact hread
    · simp
    · simp [hc]
    · simp [hc]

theorem readInt_natDigits {n bound : Nat} (h : n ≤ bound) : readInt bound (natDigits n) = .ok (Int.ofNat n) := by
  have hread := readDigits_natDigits .tooLarge h
  have hplus : '+' ∉ natDigits n := not_mem_natDigits rfl
  have hminus : '-' ∉ natDigits n := not_mem_natDigits rfl
  cases hdigits : natDigits n with
  | nil => exact absurd hdigits (natDigits_ne_nil n)
  | cons c s =>
    rw [hdigits] at hread hplus hminus
    have hc : c ≠ '+' := fun heq => hplus (by simp [heq])
    have hc' : c ≠ '-' := fun heq => hminus (by simp [heq])
    rw [readInt]
    · rw [hread]
      rfl
    all_goals simp [hc, hc']

end Categorial.Text
