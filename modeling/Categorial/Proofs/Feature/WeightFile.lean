import Mathlib
import Categorial.Feature.WeightFile
import Categorial.Proofs.Feature.Described
set_option autoImplicit false

/-!
Weight files are read back: into a fresh table, which then has the same features under its own numbers for the
strings, and into the table that was written, which stays as it is.
-/

namespace Categorial

namespace Decimal

theorem visible_of_mem_toDigits {n : Nat} {c : Char} (h : c ∈ Nat.toDigits 10 n) : Text.Visible c :=
  Text.visible_of_isDigit (Text.isDigit_of_mem_natDigits h)

theorem visible_of_mem_positional {d : Digits} {c : Char} (h : c ∈ d.positional) : Text.Visible c := by
  have hzero : ∀ {n : Nat}, c ∈ zeros n → Text.Visible c := by
    intro n hc
    rw [List.eq_of_mem_replicate hc]
    decide
  simp only [Digits.positional] at h
  split at h
  · exact (List.mem_append.mp h).elim visible_of_mem_toDigits hzero
  · split at h
    · simp only [List.mem_append, List.mem_cons, List.cons_append] at h
      rcases h with rfl | rfl | hc | hc
      · decide
      · decide
      · exact hzero hc
      · exact visible_of_mem_toDigits hc
    · simp only [List.mem_append, List.mem_cons] at h
      rcases h with hc | rfl | hc
      · exact visible_of_mem_toDigits (List.mem_of_mem_take hc)
      · decide
      · exact visible_of_mem_toDigits (List.mem_of_mem_drop hc)

theorem visible_of_mem_plain {x : Double} {c : Char} (h : c ∈ plain x) : Text.Visible c := by
  have hminus : ∀ {negative : Bool}, c ∈ minus negative → Text.Visible c := by
    intro negative hc
    cases negative with
    | false => cases hc
    | true =>
      obtain rfl := List.mem_singleton.mp hc
      decide
  have hnan : Field "NaN" := by decide
  have hinf : Field "inf" := by decide
  unfold plain at h
  split at h
  · exact hnan.visible c h
  · exact (List.mem_append.mp h).elim hminus (hinf.visible c)
  · refine (List.mem_append.mp h).elim hminus fun hc => ?_
    obtain rfl := List.mem_singleton.mp hc
    decide
  · exact (List.mem_append.mp h).elim hminus visible_of_mem_positional

end Decimal

namespace Text

theorem splitThree_row {sep : Char} {a b c : List Char} (ha : sep ∉ a) (hb : sep ∉ b) (hc : sep ∉ c) :
    splitThree sep (a ++ sep :: (b ++ sep :: c)) = [a, b, c] := by
  rw [splitThree, splitOn_append_cons ha, splitOn_append_cons hb, splitOn_of_not_mem hc]
  simp

theorem dropReturn_of_getLast? {line : List Char} (h : line.getLast? ≠ some '\r') : dropReturn line = line := by
  unfold dropReturn
  split
  · rename_i rest hrest
    exact absurd (by rw [← List.head?_reverse, hrest]; rfl) h
  · rfl

end Text

namespace WeightFile

def row (g : Grammar) (t : FeatureTable) (i : Nat) (x : Double) (key : Feature) : List Char :=
  Text.natDigits i ++ '\t' :: (Decimal.plain x ++ '\t' :: (t.describe g key).toList)

theorem toList_lineOf (g : Grammar) (t : FeatureTable) (i : Nat) (x : Double) (key : Feature) :
    (lineOf t g i x key).toList = row g t i x key ++ ['\n'] := by
  have htext : ∀ s : String, toString s = s := fun _ => rfl
  simp [lineOf, row, htext, Text.natDigits, Written.plain]

theorem setWeight_size (weights : Array Double) (x : Double) :
    setWeight weights weights.size x = weights.push x := by
  simp [setWeight]

section

variable {α : Type} [Scalar α] [Written α] {g : Grammar} {path : String} {t : FeatureTable}

theorem place_new {index : Nat} {key : Feature} (hthawed : t.frozen = false) (hnone : t.get? key = none)
    (hsize : t.size = index) (line : Nat) (description : String) :
    place t line index description key = (t.insert key, .ok ()) := by
  rw [place, hnone]
  simp only [hthawed, hsize, Bool.false_eq_true, if_false, if_true]

theorem consistent_place (h : t.Consistent) (line index : Nat) (description : String) (key : Feature) :
    (place t line index description key).1.Consistent := by
  unfold place
  cases hkey : t.get? key with
  | some here =>
    simp only
    split <;> exact h
  | none =>
    simp only
    split
    · exact h
    · split <;> exact h.insert hkey

theorem consistent_readDescription (h : t.Consistent) {description : List Char} {key : Feature} {t' : FeatureTable}
    (hread : t.readDescription g description = .ok (key, t')) : t'.Consistent := by
  rw [FeatureTable.readDescription] at hread
  cases hd : Description.read g description with
  | error e =>
    rw [hd] at hread
    cases hread
  | ok d =>
    rw [hd] at hread
    cases hread
    exact ⟨h.keys, h.counts, (d.number_spec t.symbols).2.1 h.symbols⟩

theorem consistent_readLine (h : t.Consistent) (weights : Array α) (line : Nat) (s : List Char) :
    (readLine g path t weights line s).1.Consistent := by
  unfold readLine
  split
  · simp only
    split
    · exact h
    · split
      · exact h
      · split
        · exact h
        · rename_i hread
          exact consistent_place (consistent_readDescription h hread) _ _ _ _
  · exact h

theorem consistent_readLines (lines : List Text.Line) : ∀ {t : FeatureTable} {weights : Array α} {line : Nat},
    t.Consistent → (readLines g path t weights line lines).1.Consistent := by
  induction lines with
  | nil => exact fun h => h
  | cons s lines ih =>
    intro t weights line h
    cases s with
    | none => exact h
    | some s =>
      have hline := @consistent_readLine _ _ _ g path t h weights line s
      rw [readLines]
      split
      · exact ih h
      · obtain ⟨⟨t', result⟩, hrun⟩ : ∃ r, readLine g path t weights line s = r := ⟨_, rfl⟩
        rw [hrun] at hline ⊢
        cases result with
        | error e => exact hline
        | ok weights => exact ih hline

theorem consistent_read (h : t.Consistent) (lines : List Text.Line) {t' : FeatureTable}
    {result : Except Error (String × Option (Array α))} (hread : read g path t lines = (t', result)) :
    t'.Consistent := by
  rw [read] at hread
  split at hread
  · cases hread
    exact h
  · rename_i rest _
    have hlines := @consistent_readLines α _ _ g path rest t #[] 3 h
    split at hread
    · rename_i hrun
      cases hread
      rwa [hrun] at hlines
    · rename_i hrun
      rw [hrun] at hlines
      simp only at hread
      split at hread <;> cases hread <;> exact hlines

end

/-- A table over the grammar, with strings that are fields. -/
structure Writable (g : Grammar) (t : FeatureTable) : Prop where
  consistent : t.Consistent
  refers : ∀ key ∈ t.keys, key.Refers g
  interned : ∀ key ∈ t.keys, ∀ id ∈ key.symbols, id < t.symbols.size
  words : ∀ x ∈ t.symbols.strings, Word x

section

variable {b : GrammarBuilder} {gid : Nat} {g : Grammar} {t : FeatureTable} {key : Feature}

theorem Writable.resolve? (ht : Writable g t) (hkey : key ∈ t.keys) {id : Nat} (hid : id ∈ key.symbols) :
    t.symbols.resolve? id = some (t.symbolText id) ∧ t.symbols.get? (t.symbolText id) = some id ∧
      Word (t.symbolText id) := by
  have hlt := ht.interned key hkey id hid
  have hresolve : t.symbols.resolve? id = some (t.symbolText id) := by
    rw [FeatureTable.symbolText, Symbols.resolve?, Array.getElem?_eq_getElem hlt]
    rfl
  exact ⟨hresolve, (ht.consistent.symbols _ _).mpr hresolve, ht.words _ (Array.mem_of_getElem? hresolve)⟩

theorem not_mem_describe (hb : b.Made) (hbuild : b.build gid = .ok g) (ht : Writable g t) (hkey : key ∈ t.keys)
    {c : Char} (hc : Text.isBlank c = true) (hne : c ≠ ' ') : c ∉ (t.describe g key).toList := by
  rw [t.describe_eq (ht.refers key hkey)]
  intro hmem
  rcases Grammar.mem_intercalate hmem with hblank | ⟨piece, hpiece, hmem⟩
  · exact hne (List.mem_singleton.mp hblank)
  · obtain ⟨word, hword, rfl⟩ := List.mem_map.mp hpiece
    have hvisible := (word_of_mem_words hb hbuild (ht.refers key hkey)
      (fun id hid => (ht.resolve? hkey hid).2.2) word hword).2 c hmem
    rw [hc] at hvisible
    cases hvisible

/-- What reading a line does: its feature is numbered and gets its place, and its weight is set. -/
theorem readLine_row (hb : b.Made) (hbuild : b.build gid = .ok g) (ht : Writable g t) (hkey : key ∈ t.keys)
    {i : Nat} (hi : i ≤ Text.idBound) {x : Double} (hx : Decimal.read (Decimal.plain x) = .ok x) (path : String)
    (t' : FeatureTable) (weights : Array Double) (line : Nat) :
    readLine g path t' weights line (row g t i x key) =
      let (key', symbols) := (t.described key).number t'.symbols
      let (t'', placed) := place { t' with symbols } line i (t.describe g key) key'
      (t'', placed.map fun _ => setWeight weights i x) := by
  have hindex : '\t' ∉ Text.natDigits i := Text.not_mem_natDigits rfl
  have hplain : '\t' ∉ Decimal.plain x := Grammar.not_mem_of_isBlank (fun _ => Decimal.visible_of_mem_plain) rfl
  have htext : '\t' ∉ (t.describe g key).toList := not_mem_describe hb hbuild ht hkey rfl (by decide)
  have hread : t'.readDescription g (t.describe g key).toList =
      .ok (((t.described key).number t'.symbols).1,
        { t' with symbols := ((t.described key).number t'.symbols).2 }) := by
    rw [FeatureTable.readDescription, read_describe hb hbuild (ht.refers key hkey)
      fun id hid => (ht.resolve? hkey hid).2.2]
    rfl
  have hweight : (Written.read (Decimal.plain x) : Except Decimal.ReadError Double) = .ok x := hx
  rw [readLine, row, Text.splitThree_row hindex hplain htext]
  simp only [Text.readId, Text.readNat_natDigits hi, hweight, hread, String.ofList_toList]

/-- The lines of features from some number on. -/
def rows (g : Grammar) (t : FeatureTable) (weight : Nat → Double) (first : Nat) (keys : List Feature) :
    List (List Char) :=
  (keys.zipIdx first).map fun (key, i) => row g t i (weight i) key

theorem rows_cons (weight : Nat → Double) (first : Nat) (keys : List Feature) :
    rows g t weight first (key :: keys) = row g t first (weight first) key :: rows g t weight (first + 1) keys :=
  rfl

/-- The weights that are read with them. -/
def listed (weight : Nat → Double) (first : Nat) (keys : List Feature) : Array Double :=
  ((List.range' first keys.length).map weight).toArray

theorem push_append_listed (weight : Nat → Double) (weights : Array Double) (first : Nat) (keys : List Feature) :
    weights.push (weight first) ++ listed weight (first + 1) keys =
      weights ++ listed weight first (key :: keys) := by
  simp [listed, List.range'_succ]

theorem trim_row_ne_nil (i : Nat) (x : Double) : (Text.trim (row g t i x key)).isEmpty = false := by
  obtain ⟨c, hc⟩ := List.exists_mem_of_ne_nil _ (Text.natDigits_ne_nil i)
  have hvisible := Text.visible_of_isDigit (Text.isDigit_of_mem_natDigits hc)
  simpa [row] using Text.trim_ne_nil (List.mem_append_left _ hc) hvisible.not_isBlank

theorem le_idBound {i : Nat} (h : i < 2 ^ 32) : i ≤ Text.idBound := Nat.le_sub_one_of_lt h

theorem readLines_row {path : String} {t' t'' : FeatureTable} {weights weights' : Array Double} {line i : Nat}
    {x : Double} (h : readLine g path t' weights line (row g t i x key) = (t'', .ok weights'))
    (rest : List Text.Line) :
    readLines g path t' weights line (some (row g t i x key) :: rest) =
      readLines g path t'' weights' (line + 1) rest := by
  rw [readLines, trim_row_ne_nil, h]
  rfl

section

variable (hb : b.Made) (hbuild : b.build gid = .ok g) (ht : Writable g t) {weight : Nat → Double}
  (hweight : ∀ i < t.size, Decimal.read (Decimal.plain (weight i)) = .ok (weight i))
  (hsize : t.size ≤ 2 ^ 32) (path : String)

include hb hbuild ht hweight hsize

theorem readLines_known {keys : List Feature} : ∀ {first : Nat} {weights : Array Double},
    (∀ i key, keys[i]? = some key → t.keys[first + i]? = some key) → weights.size = first → ∀ line,
      readLines g path t weights line ((rows g t weight first keys).map some) =
        (t, .ok (weights ++ listed weight first keys)) := by
  induction keys with
  | nil =>
    intro first weights _ _ line
    simp [rows, readLines, listed]
  | cons key keys ih =>
    intro first weights hkeys hfirst line
    have hplace : t.keys[first]? = some key := hkeys 0 key rfl
    have hkey : key ∈ t.keys := Array.mem_of_getElem? hplace
    have hlt : first < t.size := (Array.getElem?_eq_some_iff.mp hplace).1
    have hknown : ∀ id ∈ key.symbols, t.symbols.get? (t.symbolText id) = some id :=
      fun id hid => (ht.resolve? hkey hid).2.1
    have hnumber : (t.described key).number t.symbols = (key, t.symbols) := by
      rw [Description.number_known, t.make_described, Feature.mapSymbols_eq_self]
      · intro id hid
        rw [hknown id hid, Option.getD_some]
      · intro x hx
        rw [t.symbols_described] at hx
        obtain ⟨id, hid, rfl⟩ := List.mem_map.mp hx
        exact ⟨id, hknown id hid⟩
    have hfound : place t line first (t.describe g key) key = (t, .ok ()) := by
      rw [place, FeatureTable.get?, (ht.consistent.keys key first).mpr hplace]
      simp only [if_true]
    have hbound : first ≤ Text.idBound := le_idBound (Nat.lt_of_lt_of_le hlt hsize)
    have hline : readLine g path t weights line (row g t first (weight first) key) =
        (t, .ok (weights.push (weight first))) := by
      rw [readLine_row hb hbuild ht hkey hbound (hweight first hlt), hnumber]
      simp only
      rw [hfound, ← hfirst, setWeight_size]
      rfl
    rw [rows_cons, List.map_cons, readLines_row hline, ih (fun i key h => ?_) (by simp [hfirst]),
      push_append_listed]
    rw [Nat.add_right_comm, Nat.add_assoc]
    exact hkeys (i + 1) key h

end

/-- A table with copies of these features, under its own numbers for the strings. -/
structure Copies (t : FeatureTable) (done : List Feature) (t' : FeatureTable) : Prop where
  consistent : t'.Consistent
  thawed : t'.frozen = false
  known : ∀ key ∈ done, ∀ id ∈ key.symbols, ∃ id', t'.symbols.get? (t.symbolText id) = some id'
  keys : t'.keys.toList = done.map (Feature.mapSymbols (t.symbols.elsewhere t'.symbols))

theorem eq_of_mapSymbols_eq (ht : Writable g t) {s : Symbols} (hs : s.Consistent) {key key' : Feature}
    (hkey : key ∈ t.keys) (hkey' : key' ∈ t.keys)
    (hknown : ∀ id ∈ key.symbols ++ key'.symbols, ∃ id', s.get? (t.symbolText id) = some id')
    (h : key.mapSymbols (t.symbols.elsewhere s) = key'.mapSymbols (t.symbols.elsewhere s)) : key = key' := by
  have hback : ∀ k ∈ t.keys, (∀ id ∈ k.symbols, ∃ id', s.get? (t.symbolText id) = some id') →
      (k.mapSymbols (t.symbols.elsewhere s)).mapSymbols (s.elsewhere t.symbols) = k := by
    intro k hk hids
    rw [Feature.mapSymbols_mapSymbols]
    refine Feature.mapSymbols_eq_self fun id hid => ?_
    obtain ⟨hresolve, hget, -⟩ := ht.resolve? hk hid
    obtain ⟨id', hid'⟩ := hids id hid
    rw [Symbols.elsewhere_eq hresolve hid']
    exact Symbols.elsewhere_eq ((hs _ _).mp hid') hget
  rw [← hback key hkey fun id hid => hknown id (by simp [hid]), h,
    hback key' hkey' fun id hid => hknown id (by simp [hid])]

theorem Copies.extend (ht : Writable g t) {done : List Feature} (hdone : ∀ key ∈ done, key ∈ t.keys)
    {t' : FeatureTable} (h : Copies t done t') {s : Symbols} (hextends : t'.symbols.Extends s)
    (hs : s.Consistent) : Copies t done { t' with symbols := s } where
  consistent := ⟨h.consistent.keys, h.consistent.counts, hs⟩
  thawed := h.thawed
  known key hkey id hid := by
    obtain ⟨id', hid'⟩ := h.known key hkey id hid
    exact ⟨id', hextends _ _ hid'⟩
  keys := by
    refine h.keys.trans (List.map_congr_left fun key hkey => Feature.mapSymbols_congr fun id hid => ?_)
    obtain ⟨id', hid'⟩ := h.known key hkey id hid
    obtain ⟨hresolve, -, -⟩ := ht.resolve? (hdone key hkey) hid
    exact (Symbols.elsewhere_eq hresolve hid').trans (Symbols.elsewhere_eq hresolve (hextends _ _ hid')).symm

theorem Copies.size_eq {done : List Feature} {t' : FeatureTable} (h : Copies t done t') :
    t'.size = done.length := by
  have hlength := congrArg List.length h.keys
  simpa [FeatureTable.size] using hlength

/-- The copy of a feature that has none yet is not in the table. -/
theorem Copies.get?_eq_none (ht : Writable g t) {done : List Feature} (hdone : ∀ key ∈ done, key ∈ t.keys)
    {t' : FeatureTable} (h : Copies t done t') (hkey : key ∈ t.keys) (hnew : key ∉ done)
    (hknown : ∀ id ∈ key.symbols, ∃ id', t'.symbols.get? (t.symbolText id) = some id') :
    t'.get? (key.mapSymbols (t.symbols.elsewhere t'.symbols)) = none := by
  cases hget : t'.get? (key.mapSymbols (t.symbols.elsewhere t'.symbols)) with
  | none => rfl
  | some i =>
    have hmem : key.mapSymbols (t.symbols.elsewhere t'.symbols) ∈ t'.keys.toList :=
      Array.mem_toList_iff.mpr (Array.mem_of_getElem? ((h.consistent.keys _ i).mp hget))
    rw [h.keys] at hmem
    obtain ⟨key', hkey', heq⟩ := List.mem_map.mp hmem
    have hsame : key' = key := by
      refine eq_of_mapSymbols_eq ht h.consistent.symbols (hdone key' hkey') hkey (fun id hid => ?_) heq
      exact (List.mem_append.mp hid).elim (h.known key' hkey' id) (hknown id)
    exact absurd (hsame ▸ hkey') hnew

theorem Copies.place (ht : Writable g t) {done : List Feature} {t' : FeatureTable} (hcopies : Copies t done t')
    (hdone : ∀ key ∈ done, key ∈ t.keys) (hkey : key ∈ t.keys) (hnew : key ∉ done) (line : Nat)
    (description : String) :
    ∃ t'', WeightFile.place { t' with symbols := ((t.described key).number t'.symbols).2 } line done.length
      description ((t.described key).number t'.symbols).1 = (t'', .ok ()) ∧ Copies t (done ++ [key]) t'' := by
  obtain ⟨hextends, hconsistent, hfound, hmade⟩ := (t.described key).number_spec t'.symbols
  rw [hmade, t.make_described]
  have hs := hconsistent hcopies.consistent.symbols
  generalize ((t.described key).number t'.symbols).2 = s at hextends hfound hs ⊢
  have hold : Copies t done { t' with symbols := s } := hcopies.extend ht hdone hextends hs
  have hknown : ∀ id ∈ key.symbols, ∃ id', s.get? (t.symbolText id) = some id' :=
    fun id hid => hfound _ (t.symbols_described key ▸ List.mem_map_of_mem hid)
  have hnone := hold.get?_eq_none ht hdone hkey hnew hknown
  refine ⟨_, ?_, hold.consistent.insert hnone, hold.thawed, fun k hk id hid => ?_, ?_⟩
  · exact place_new hold.thawed hnone hold.size_eq line description
  · rcases List.mem_append.mp hk with hk | hk
    · exact hold.known k hk id hid
    · obtain rfl := List.mem_singleton.mp hk
      exact hknown id hid
  · have hkeys : t'.keys.toList = done.map (Feature.mapSymbols (t.symbols.elsewhere s)) := hold.keys
    have hpush : (FeatureTable.insert { t' with symbols := s }
        (key.mapSymbols (t.symbols.elsewhere s))).keys.toList =
          t'.keys.toList ++ [key.mapSymbols (t.symbols.elsewhere s)] := Array.toList_push
    rw [hpush, hkeys, List.map_append, List.map_singleton]
    rfl

section

variable (hb : b.Made) (hbuild : b.build gid = .ok g) (ht : Writable g t) {weight : Nat → Double}
  (hweight : ∀ i < t.size, Decimal.read (Decimal.plain (weight i)) = .ok (weight i))
  (hsize : t.size ≤ 2 ^ 32) (path : String)

include hb hbuild ht hweight hsize

theorem readLines_fresh {keys : List Feature} : ∀ {done : List Feature} {t' : FeatureTable}
    {weights : Array Double}, Copies t done t' → done ++ keys = t.keys.toList → weights.size = done.length →
      ∀ line, ∃ t'', readLines g path t' weights line ((rows g t weight done.length keys).map some) =
        (t'', .ok (weights ++ listed weight done.length keys)) ∧ Copies t (done ++ keys) t'' := by
  induction keys with
  | nil =>
    intro done t' weights hcopies _ _ line
    refine ⟨t', ?_, by rwa [List.append_nil]⟩
    simp [rows, readLines, listed]
  | cons key keys ih =>
    intro done t' weights hcopies hall hfirst line
    have hmem : ∀ k ∈ done ++ key :: keys, k ∈ t.keys := fun k hk => Array.mem_toList_iff.mp (hall ▸ hk)
    have hkey : key ∈ t.keys := hmem key (by simp)
    have hlt : done.length < t.size := by
      have hlength := congrArg List.length hall
      simp only [List.length_append, List.length_cons, Array.length_toList] at hlength
      rw [FeatureTable.size]
      omega
    have hnew : key ∉ done := by
      have hnodup : (done ++ key :: keys).Nodup := hall ▸ ht.consistent.keys.nodup
      exact fun hin => (List.nodup_append.mp hnodup).2.2 key hin key (by simp) rfl
    obtain ⟨t₁, hplaced, hcopies₁⟩ :=
      hcopies.place ht (fun k hk => hmem k (by simp [hk])) hkey hnew line (t.describe g key)
    have hline : readLine g path t' weights line (row g t done.length (weight done.length) key) =
        (t₁, .ok (weights.push (weight done.length))) := by
      rw [readLine_row hb hbuild ht hkey (le_idBound (Nat.lt_of_lt_of_le hlt hsize)) (hweight _ hlt)]
      simp only
      rw [hplaced, ← hfirst, setWeight_size]
      rfl
    have hpushed : (weights.push (weight done.length)).size = (done ++ [key]).length := by
      rw [Array.size_push, hfirst, List.length_append, List.length_singleton]
    have hall₁ : (done ++ [key]) ++ keys = t.keys.toList := by
      rw [List.append_assoc]
      exact hall
    obtain ⟨t'', hrest, hcopies''⟩ := ih hcopies₁ hall₁ hpushed (line + 1)
    rw [List.length_append, List.length_singleton] at hrest
    refine ⟨t'', ?_, by rwa [List.append_assoc] at hcopies''⟩
    rw [rows_cons, List.map_cons, readLines_row hline, hrest, push_append_listed]

end

/-- A text without a line end, and without the beginning of one at its end. -/
def OneLine (s : String) : Prop := '\n' ∉ s.toList ∧ s.toList.getLast? ≠ some '\r'

instance : DecidablePred OneLine := fun _ => inferInstanceAs (Decidable (_ ∧ _))

/-- The text of a file: name, count and a line for every feature. -/
def fileOf (g : Grammar) (t : FeatureTable) (name count : String) (weight : Nat → Double) : String :=
  name ++ "\n" ++ count ++ "\n" ++
    String.join (t.keys.toList.zipIdx.map fun (key, i) => lineOf t g i (weight i) key)

theorem not_mem_row (hb : b.Made) (hbuild : b.build gid = .ok g) (ht : Writable g t) (hkey : key ∈ t.keys)
    (i : Nat) (x : Double) {c : Char} (hc : Text.isBlank c = true) (hspace : c ≠ ' ') (htab : c ≠ '\t') :
    c ∉ row g t i x key := by
  have hdigits : c ∉ Text.natDigits i :=
    Grammar.not_mem_of_isBlank (fun _ hd => Text.visible_of_isDigit (Text.isDigit_of_mem_natDigits hd)) hc
  have hplain : c ∉ Decimal.plain x := Grammar.not_mem_of_isBlank (fun _ => Decimal.visible_of_mem_plain) hc
  have htext := not_mem_describe hb hbuild ht hkey hc hspace
  simp [row, hdigits, hplain, htext, htab]

theorem linesOfString_fileOf (hb : b.Made) (hbuild : b.build gid = .ok g) (ht : Writable g t) {name count : String}
    (hname : OneLine name) (hcount : ∀ c ∈ count.toList, Text.Visible c) (weight : Nat → Double) :
    Text.linesOfString (fileOf g t name count weight) =
      some name.toList :: some count.toList :: (rows g t weight 0 t.keys.toList).map some := by
  have hlist : (fileOf g t name count weight).toList = name.toList ++ '\n' :: (count.toList ++ '\n' ::
      (rows g t weight 0 t.keys.toList).flatMap (· ++ ['\n'])) := by
    simp [fileOf, rows, String.toList_join, List.flatMap_map, toList_lineOf]
  have hrows : ∀ line ∈ rows g t weight 0 t.keys.toList, '\n' ∉ line ∧ '\r' ∉ line := by
    intro line hline
    obtain ⟨⟨key, i⟩, hmem, rfl⟩ := List.mem_map.mp hline
    have hkey : key ∈ t.keys :=
      Array.mem_toList_iff.mp (List.mem_of_getElem? (List.mem_zipIdx_iff_getElem?.mp hmem))
    exact ⟨not_mem_row hb hbuild ht hkey i _ rfl (by decide) (by decide),
      not_mem_row hb hbuild ht hkey i _ rfl (by decide) (by decide)⟩
  have hfeed : '\n' ∉ count.toList := Grammar.not_mem_of_isBlank hcount rfl
  have hreturn : '\r' ∉ count.toList := Grammar.not_mem_of_isBlank hcount rfl
  rw [Text.linesOfString, hlist, Text.lines_append_cons hname.1, Text.dropReturn_of_getLast? hname.2,
    Text.lines_append_cons hfeed, Text.dropReturn_of_not_mem hreturn, Text.lines_flatMap hrows]
  rfl

theorem read_of_readLines {path : String} {t' t'' : FeatureTable} {name count : List Char} {declared : Int}
    {rest : List Text.Line} {weights : Array Double}
    (hcount : Text.readInt countBound (Text.trim count) = .ok declared)
    (hlines : readLines g path t' #[] 3 rest = (t'', .ok weights)) (hweights : weights.size = t''.size)
    (hdeclared : declared < 0 ∨ declared = Int.ofNat t''.size) :
    read g path t' (some name :: some count :: rest) =
      (t'', .ok (String.ofList name, if 0 ≤ declared then some weights else none)) := by
  have hheader : readHeader path (some name :: some count :: rest) = .ok (String.ofList name, declared, rest) := by
    rw [readHeader, hcount]
    rfl
  rw [read, hheader]
  simp only [hlines, hweights, Nat.sub_self, Array.replicate_zero, Array.append_empty]
  rw [if_neg (by omega)]

theorem size_listed (weight : Nat → Double) (first : Nat) (keys : List Feature) :
    (listed weight first keys).size = keys.length := by
  simp [listed]

theorem listed_getElem? {w : Array Double} {keys : List Feature} (h : w.size = keys.length) :
    listed (fun i => w[i]?.getD Scalar.zero) 0 keys = w := by
  refine Array.ext (by rw [size_listed, h]) fun i hi hw => ?_
  simp [listed, Array.getElem?_eq_getElem hw]

theorem Copies.keys_eq (ht : Writable g t) {t' : FeatureTable} (h : Copies t t.keys.toList t') :
    t'.keys = t.keys.map (Feature.mapSymbols (t.symbols.elsewhere t'.symbols)) ∧
      ∀ key ∈ t.keys, ∀ id ∈ key.symbols,
        t'.symbols.resolve? (t.symbols.elsewhere t'.symbols id) = t.symbols.resolve? id := by
  refine ⟨Array.toList_inj.mp (by rw [h.keys, Array.toList_map]), fun key hkey id hid => ?_⟩
  obtain ⟨hresolve, -, -⟩ := ht.resolve? hkey hid
  obtain ⟨id', hid'⟩ := h.known key (Array.mem_toList_iff.mpr hkey) id hid
  rw [Symbols.elsewhere_eq hresolve hid', hresolve]
  exact (h.consistent.symbols _ _).mp hid'

theorem readInt_toString {n : Nat} (h : n ≤ 2 ^ 32) :
    Text.readInt countBound (toString n).toList = .ok (Int.ofNat n) := by
  have hbound : 2 ^ 32 ≤ countBound := by decide
  rw [Text.toList_toString, Text.readInt_natDigits (Nat.le_trans h hbound)]

theorem read_fileOf (hb : b.Made) (hbuild : b.build gid = .ok g) (ht : Writable g t) (hsize : t.size ≤ 2 ^ 32)
    {name count : String} (hname : OneLine name) (hvisible : ∀ c ∈ count.toList, Text.Visible c) {declared : Int}
    (hcount : Text.readInt countBound count.toList = .ok declared)
    (hdeclared : declared < 0 ∨ declared = Int.ofNat t.size) {weight : Nat → Double}
    (hweight : ∀ i < t.size, Decimal.read (Decimal.plain (weight i)) = .ok (weight i)) (path : String) :
    (∃ t', read g path .empty (Text.linesOfString (fileOf g t name count weight)) =
        (t', .ok (name, if 0 ≤ declared then some (listed weight 0 t.keys.toList) else none)) ∧
      Copies t t.keys.toList t') ∧
    read g path t (Text.linesOfString (fileOf g t name count weight)) =
      (t, .ok (name, if 0 ≤ declared then some (listed weight 0 t.keys.toList) else none)) := by
  have htrim : Text.trim count.toList = count.toList :=
    Text.trim_of_not_isBlank fun c hc => (hvisible c hc).not_isBlank
  rw [← htrim] at hcount
  rw [linesOfString_fileOf hb hbuild ht hname hvisible]
  constructor
  · have hempty : Copies t [] .empty := ⟨FeatureTable.consistent_empty, rfl, by simp, rfl⟩
    have hnone : (#[] : Array Double).size = ([] : List Feature).length := rfl
    obtain ⟨t', hlines, hcopies⟩ :=
      readLines_fresh hb hbuild ht hweight hsize path hempty (List.nil_append _) hnone 3
    have hsame : t'.size = t.size := hcopies.size_eq
    rw [List.length_nil, Array.empty_append] at hlines
    refine ⟨t', ?_, hcopies⟩
    rw [read_of_readLines hcount hlines (by rw [size_listed, hsame]; rfl) (by rw [hsame]; exact hdeclared),
      String.ofList_toList]
  · have hkeys : ∀ i key, t.keys.toList[i]? = some key → t.keys[0 + i]? = some key :=
      fun i key h => by rwa [Nat.zero_add, ← Array.getElem?_toList]
    have hlines := readLines_known hb hbuild ht hweight hsize path hkeys Array.size_empty 3
    rw [Array.empty_append] at hlines
    rw [read_of_readLines hcount hlines (by rw [size_listed]; rfl) hdeclared, String.ofList_toList]

/-- What was written is read back, if the numbers of the features have 32 bits: into a fresh table, which then has
the features at the same places under its own numbers for the strings, and into the table itself, which stays as
it is. -/
theorem read_write (hb : b.Made) (hbuild : b.build gid = .ok g) (ht : Writable g t) (hsize : t.size ≤ 2 ^ 32)
    {name : String} (hname : OneLine name) {weights : Option (Array Double)}
    (hweights : ∀ w, weights = some w → w.size = t.size ∧ ∀ x ∈ w, Decimal.read (Decimal.plain x) = .ok x)
    (path : String) :
    ∃ file, write g t name weights = .ok file ∧
      (∃ t' f, read g path .empty (Text.linesOfString file) = (t', .ok (name, weights)) ∧
        t'.keys = t.keys.map (Feature.mapSymbols f) ∧
        ∀ key ∈ t.keys, ∀ id ∈ key.symbols, t'.symbols.resolve? (f id) = t.symbols.resolve? id) ∧
      read g path t (Text.linesOfString file) = (t, .ok (name, weights)) := by
  cases weights with
  | none =>
    have hfield : Field "-1" := by decide
    have hcount : Text.readInt countBound "-1".toList = .ok (-1) := rfl
    have hzero : Decimal.read (Decimal.plain Scalar.zero) = .ok Scalar.zero := rfl
    obtain ⟨⟨t', hfresh, hcopies⟩, hknown⟩ :=
      read_fileOf hb hbuild ht hsize hname hfield.visible hcount (.inl (by decide)) (fun _ _ => hzero) path
    exact ⟨_, rfl, ⟨t', _, hfresh, hcopies.keys_eq ht⟩, hknown⟩
  | some w =>
    obtain ⟨hlength, hround⟩ := hweights w rfl
    have hvisible : ∀ c ∈ (toString w.size).toList, Text.Visible c := (Grammar.field_toString w.size).2
    have hcount := readInt_toString (hlength ▸ hsize)
    have hweight : ∀ i < t.size, Decimal.read (Decimal.plain (w[i]?.getD Scalar.zero)) =
        .ok (w[i]?.getD Scalar.zero) := by
      intro i hi
      rw [Array.getElem?_eq_getElem (hlength ▸ hi), Option.getD_some]
      exact hround _ (Array.getElem_mem _)
    obtain ⟨⟨t', hfresh, hcopies⟩, hknown⟩ :=
      read_fileOf hb hbuild ht hsize hname hvisible hcount (.inr (hlength ▸ rfl)) hweight path
    have hlisted : (if 0 ≤ Int.ofNat w.size then
        some (listed (fun i => w[i]?.getD Scalar.zero) 0 t.keys.toList) else none) = some w := by
      have hpositive : 0 ≤ Int.ofNat w.size := Int.natCast_nonneg _
      rw [if_pos hpositive, listed_getElem? (by rw [hlength]; rfl)]
    rw [hlisted] at hfresh hknown
    refine ⟨fileOf g t name (toString w.size) fun i => w[i]?.getD Scalar.zero, ?_,
      ⟨t', _, hfresh, hcopies.keys_eq ht⟩, hknown⟩
    simp only [write, if_pos hlength]
    rfl

end

end WeightFile

namespace Observed

/-! The weights of a few features over the codebook of the tree. -/

theorem rules_of_build {g : Grammar} (h : builder.build 0 = .ok g) : g.rules.toList = builder.rules := by
  obtain ⟨_, _, _, hrules⟩ := Grammar.contents_ofRules (GrammarBuilder.ofRules_of_build h)
  exact hrules

def symbols : Symbols := ⟨#["dogs", "run"], ((∅ : Std.HashMap String Nat).insert "dogs" 0).insert "run" 1⟩

def unkeyed : FeatureTable := { FeatureTable.empty with symbols := symbols }

def table : FeatureTable := ((unkeyed.insert (.lexWord 1 0)).insert (.depWord 2 1 0)).insert (.dist 2 3)

theorem consistent_table : table.Consistent := by
  have hsymbols : symbols.Consistent := by
    have hdogs : Positions ((∅ : Std.HashMap String Nat).insert "dogs" 0) #["dogs"] :=
      Positions.empty.push Std.HashMap.getElem?_empty
    refine hdogs.push ?_
    rw [Std.HashMap.getElem?_insert, if_neg (by decide)]
    exact Std.HashMap.getElem?_empty
  have hunkeyed : unkeyed.Consistent := ⟨.empty, rfl, hsymbols⟩
  have hfirst : unkeyed.get? (.lexWord 1 0) = none := Std.HashMap.getElem?_empty
  have hsecond : (unkeyed.insert (.lexWord 1 0)).get? (.depWord 2 1 0) = none := by
    rw [FeatureTable.get?, FeatureTable.insert, Std.HashMap.getElem?_insert, if_neg (by decide)]
    exact Std.HashMap.getElem?_empty
  have hthird : ((unkeyed.insert (.lexWord 1 0)).insert (.depWord 2 1 0)).get? (.dist 2 3) = none := by
    rw [FeatureTable.get?, FeatureTable.insert, FeatureTable.insert, Std.HashMap.getElem?_insert,
      if_neg (by decide), Std.HashMap.getElem?_insert, if_neg (by decide)]
    exact Std.HashMap.getElem?_empty
  exact ((hunkeyed.insert hfirst).insert hsecond).insert hthird

theorem writable_table {g : Grammar} (h : builder.build 0 = .ok g) : WeightFile.Writable g table := by
  have hsize : g.size = 3 := by
    obtain ⟨_, _, hcontents, _⟩ := Grammar.contents_ofRules (GrammarBuilder.ofRules_of_build h)
    rw [Grammar.size, hcontents.categories_eq]
    rfl
  have hbinary : g.IsBinary 2 := by
    refine ⟨1, 2, 0, ⟨2, .rightBinary, .bwdApp, 0, .binary 1 2, 1⟩, ?_, rfl, rfl⟩
    rw [Grammar.rule?, ← Array.getElem?_toList, rules_of_build h, rules_builder]
    rfl
  refine ⟨consistent_table, ?_, by decide, by decide⟩
  intro key hkey
  have hkey' : key = .lexWord 1 0 ∨ key = .depWord 2 1 0 ∨ key = .dist 2 3 := by
    simpa [table, unkeyed, FeatureTable.insert, FeatureTable.empty] using hkey
  rcases hkey' with rfl | rfl | rfl
  · rw [Feature.Refers, hsize]
    decide
  · exact hbinary
  · exact ⟨hbinary, by decide⟩

/-- One and a half, minus zero and a tenth. -/
def weights : Array Double := #[⟨0x3FF8000000000000⟩, ⟨0x8000000000000000⟩, ⟨0x3FB999999999999A⟩]

theorem read_write_table : ∃ g, builder.Made ∧ builder.build 0 = .ok g ∧ WeightFile.Writable g table ∧
    ∃ file, WeightFile.write g table "perceptron" (some weights) = .ok file ∧
      (∃ t' f, WeightFile.read g "model.weights" .empty (Text.linesOfString file) =
          (t', .ok ("perceptron", some weights)) ∧
        t'.keys = table.keys.map (Feature.mapSymbols f) ∧
        ∀ key ∈ table.keys, ∀ id ∈ key.symbols, t'.symbols.resolve? (f id) = table.symbols.resolve? id) ∧
      WeightFile.read g "model.weights" table (Text.linesOfString file) =
        (table, .ok ("perceptron", some weights)) := by
  obtain ⟨g, hg, _⟩ := exists_build
  refine ⟨g, made_builder, hg, writable_table hg,
    WeightFile.read_write made_builder hg (writable_table hg) (by decide) (by decide) ?_ _⟩
  rintro _ ⟨⟩
  refine ⟨rfl, fun x hx => ?_⟩
  have hx' : x = ⟨0x3FF8000000000000⟩ ∨ x = ⟨0x8000000000000000⟩ ∨ x = ⟨0x3FB999999999999A⟩ := by
    simpa [weights] using hx
  rcases hx' with rfl | rfl | rfl <;> rfl

end Observed

end Categorial
