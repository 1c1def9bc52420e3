import Categorial.Category.Reader
import Categorial.Proofs.Except
import Categorial.Proofs.Text.Records
import Mathlib.Logic.Function.Iterate
set_option autoImplicit false

namespace Categorial

namespace Category

/-- Letters, or a single sign. -/
def ProperBase (base : String) : Prop :=
  (base.toList ≠ [] ∧ ∀ c ∈ base.toList, isBaseChar c = true) ∨
    ∃ c, isBaseSign c = true ∧ base.toList = [c]

/-- Letters and digits, which do not spell the mark of a conjunct. -/
def ProperFeature (f : String) : Prop :=
  f.toList ≠ [] ∧ (∀ c ∈ f.toList, isFeatureChar c = true) ∧ f ≠ "conj"

def Proper : Category → Prop
  | atom base feature => ProperBase base ∧ ∀ f ∈ feature, ProperFeature f
  | functor x _ y => x.Proper ∧ y.Proper
  | conj x => x.Proper

theorem proper_raise {x t : Category} (hx : x.Proper) (ht : t.Proper) (slash : Slash) :
    (x.raise t slash).Proper := ⟨ht, ht, hx⟩

-- What the readers do with each beginning.

theorem mem_takeWhile {p : Char → Bool} {s : List Char} {c : Char} (h : c ∈ s.takeWhile p) :
    p c = true := List.all_eq_true.mp List.all_takeWhile c h

theorem properBase_of_readBase {s rest : List Char} {base : String}
    (h : readBase s = .ok (base, rest)) : ProperBase base := by
  cases s with
  | nil => cases h
  | cons c s =>
    rw [readBase] at h
    split at h
    · rename_i hc
      cases h
      refine .inl ⟨by simp, fun d hd => ?_⟩
      rw [String.toList_ofList] at hd
      rcases List.mem_cons.mp hd with rfl | hmem
      · exact hc
      · exact mem_takeWhile hmem
    · split at h
      · rename_i hc
        cases h
        exact .inr ⟨c, hc, by simp⟩
      · cases h

theorem feature_of_readFeature {s rest : List Char} {f : String} (h : readFeature s = (some f, rest)) :
    f.toList ≠ [] ∧ ∀ c ∈ f.toList, isFeatureChar c = true := by
  unfold readFeature at h
  split at h
  · split at h
    · rename_i r f' fs rest' htake _
      cases h
      rw [String.toList_ofList, ← htake]
      exact ⟨by simp [htake], fun c hc => mem_takeWhile hc⟩
    · cases h
  · cases h

theorem readPrimary_open (fuel : Nat) (s : List Char) :
    readPrimary (fuel + 1) ('(' :: s) =
      (readPrimary fuel s >>= fun (first, s) => readArguments fuel first s >>= fun (c, s) =>
        expect ')' s >>= fun s => pure (readMarks c s)) := by
  rw [readPrimary]

theorem readPrimary_of_ne {s : List Char} (h : ∀ t, s ≠ '(' :: t) (fuel : Nat) :
    readPrimary fuel s = readAtom s := by
  rw [readPrimary]
  intro _ t _ hs
  exact h t hs

theorem readArguments_nil (fuel : Nat) (c : Category) : readArguments fuel c [] = .ok (c, []) := by
  cases fuel <;> rfl

theorem readArguments_slash (fuel : Nat) (c : Category) (slash : Slash) (s : List Char) :
    readArguments (fuel + 1) c (slash.char :: s) =
      (readPrimary fuel s >>= fun (arg, s) => readArguments fuel (functor c slash arg) s) := by
  cases slash <;> rfl

theorem readArguments_of_slash? {ch : Char} (h : slash? ch = none) (fuel : Nat) (c : Category)
    (s : List Char) : readArguments fuel c (ch :: s) = .ok (c, ch :: s) := by
  cases fuel with
  | zero => rfl
  | succ fuel => rw [readArguments, h]

theorem slash_of_slash? {ch : Char} {slash : Slash} (h : slash? ch = some slash) :
    ch = slash.char := by
  unfold slash? at h
  split at h
  · cases h
    rfl
  · cases h
    rfl
  · cases h

-- An atom is read back, with all marks behind it, before what may follow a category.

open Text (Visible)

theorem visible_of_isBaseChar {c : Char} (h : isBaseChar c = true) : Visible c := by
  have hletter : (c.isUpper || c.isLower) = true := h
  rcases (Bool.or_eq_true _ _).mp hletter with hupper | hlower
  · obtain ⟨hlow, hhigh⟩ : 'A'.val ≤ c.val ∧ c.val ≤ 'Z'.val := of_decide_eq_true hupper
    have hA : 33 ≤ 'A'.val.toNat := by decide
    have hZ : 'Z'.val.toNat ≤ 126 := by decide
    rw [UInt32.le_iff_toNat_le] at hlow hhigh
    exact ⟨Nat.le_trans hA hlow, Nat.le_trans hhigh hZ⟩
  · obtain ⟨hlow, hhigh⟩ : 'a'.val ≤ c.val ∧ c.val ≤ 'z'.val :=
      ((Bool.and_eq_true _ _).mp hlower).imp of_decide_eq_true of_decide_eq_true
    have ha : 33 ≤ 'a'.val.toNat := by decide
    have hz : 'z'.val.toNat ≤ 126 := by decide
    rw [UInt32.le_iff_toNat_le] at hlow hhigh
    exact ⟨Nat.le_trans ha hlow, Nat.le_trans hhigh hz⟩

theorem visible_of_isFeatureChar {c : Char} (h : isFeatureChar c = true) : Visible c := by
  simp only [isFeatureChar, Char.isAlphanum, Bool.or_eq_true] at h
  rcases h with hletter | hdigit
  · exact visible_of_isBaseChar hletter
  · exact Text.visible_of_isDigit hdigit

/-- What may follow the text of a category. -/
def Stops (s : List Char) : Prop := ∀ c ∈ s.head?, isBaseChar c = false ∧ c ≠ '['

def marks (n : Nat) : List Char := (List.replicate n conjMark).flatten

theorem marks_succ_append (n : Nat) (s : List Char) :
    marks (n + 1) ++ s = '[' :: 'c' :: 'o' :: 'n' :: 'j' :: ']' :: (marks n ++ s) := by
  simp [marks, List.replicate_succ, conjMark]

theorem readMarks_marks {s : List Char} (hs : Stops s) (n : Nat) (c : Category) :
    readMarks c (marks n ++ s) = (conj^[n] c, s) := by
  induction n generalizing c with
  | zero =>
    rw [readMarks]
    · rfl
    · intro t ht
      have hstop := hs '[' (by simp [marks] at ht; simp [ht])
      exact hstop.2 rfl
  | succ n ih =>
    rw [marks_succ_append, readMarks, ih]
    rfl

theorem takeWhile_all_append {p : Char → Bool} {xs s : List Char} (hxs : ∀ c ∈ xs, p c = true)
    (hs : ∀ c ∈ s.head?, p c = false) : (xs ++ s).takeWhile p = xs ∧ (xs ++ s).dropWhile p = s := by
  rw [List.takeWhile_append_of_pos hxs, List.dropWhile_append_of_pos hxs]
  cases s with
  | nil => simp
  | cons c s =>
    have hc : p c = false := hs c rfl
    simp [hc]

theorem readBase_append {base : String} (hbase : ProperBase base) {s : List Char}
    (hs : ∀ c ∈ s.head?, isBaseChar c = false) :
    readBase (base.toList ++ s) = .ok (base, s) := by
  rcases hbase with ⟨hne, hchars⟩ | ⟨c, hc, hsingle⟩
  · cases hlist : base.toList with
    | nil => exact absurd hlist hne
    | cons c cs =>
      rw [hlist] at hchars
      have hcs : ∀ d ∈ cs, isBaseChar d = true := fun d hd => hchars d (by simp [hd])
      obtain ⟨htake, hdrop⟩ := takeWhile_all_append hcs hs
      rw [List.cons_append, readBase, if_pos (hchars c (by simp)), htake, hdrop, ← hlist,
        String.ofList_toList]
  · have hletter : isBaseChar c = false := by
      simp only [isBaseSign, Bool.or_eq_true, beq_iff_eq] at hc
      rcases hc with ((rfl | rfl) | rfl) | rfl <;> rfl
    rw [hsingle, List.singleton_append, readBase, hletter, if_neg (by simp), if_pos hc, ← hsingle,
      String.ofList_toList]

theorem ne_open_of_properBase {base : String} (hbase : ProperBase base) (s : List Char) :
    ∀ t, base.toList ++ s ≠ '(' :: t := by
  intro t ht
  rcases hbase with ⟨hne, hchars⟩ | ⟨c, hc, hsingle⟩
  · cases hlist : base.toList with
    | nil => exact hne hlist
    | cons c cs =>
      rw [hlist] at ht
      cases ht
      have hletter := hchars '(' (by simp [hlist])
      cases hletter
  · rw [hsingle] at ht
    cases ht
    cases hc

theorem readFeature_append {f : String} (hf : ProperFeature f) (s : List Char) :
    readFeature (featureChars (some f) ++ s) = (some f, s) := by
  obtain ⟨hne, hchars, _⟩ := hf
  have hend : ∀ c ∈ (']' :: s).head?, isFeatureChar c = false := by
    intro c hc
    cases hc
    rfl
  obtain ⟨htake, hdrop⟩ := takeWhile_all_append hchars hend
  have hlist : featureChars (some f) ++ s = '[' :: (f.toList ++ ']' :: s) := by simp [featureChars]
  rw [hlist, readFeature, htake, hdrop]
  cases hcs : f.toList with
  | nil => exact absurd hcs hne
  | cons c cs =>
    have hf : String.ofList (c :: cs) = f := by rw [← hcs, String.ofList_toList]
    simp [hf]

/-- Without a feature a mark that follows is taken for one at first, with the same outcome. -/
theorem readMarks_readFeature {base : String} {s : List Char} (hs : Stops s) (n : Nat) :
    readMarks (atomOf base (readFeature (marks n ++ s)).1) (readFeature (marks n ++ s)).2 =
      readMarks (atom base none) (marks n ++ s) := by
  cases n with
  | zero =>
    have hnone : readFeature s = (none, s) := by
      unfold readFeature
      split
      · exact absurd rfl (hs '[' rfl).2
      · rfl
    simp [marks, hnone, atomOf]
  | succ n =>
    have hsplit := marks_succ_append n s
    have hread : readFeature (marks (n + 1) ++ s) = (some "conj", marks n ++ s) := by
      rw [hsplit]
      rfl
    rw [hread, hsplit, readMarks]
    rfl

theorem head?_marks_append {s : List Char} (hs : Stops s) (n : Nat) :
    ∀ c ∈ (marks n ++ s).head?, isBaseChar c = false := by
  cases n with
  | zero => exact fun c hc => (hs c hc).1
  | succ n =>
    intro c hc
    rw [marks_succ_append] at hc
    cases hc
    rfl

theorem readAtom_append {base : String} {feature : Option String} (hbase : ProperBase base)
    (hfeature : ∀ f ∈ feature, ProperFeature f) {s : List Char} (hs : Stops s) (n : Nat) :
    readAtom (base.toList ++ featureChars feature ++ (marks n ++ s)) =
      .ok (conj^[n] (atom base feature), s) := by
  cases feature with
  | none =>
    have hread := readBase_append hbase (head?_marks_append hs n)
    have hlist : base.toList ++ featureChars none ++ (marks n ++ s) = base.toList ++ (marks n ++ s) := by
      simp [featureChars]
    rw [readAtom, hlist, hread, Except.map]
    simp only [readMarks_readFeature hs, readMarks_marks hs]
  | some f =>
    have hf := hfeature f rfl
    have hopen : ∀ c ∈ (featureChars (some f) ++ (marks n ++ s)).head?, isBaseChar c = false := by
      intro c hc
      cases hc
      rfl
    have hread := readBase_append hbase hopen
    rw [readAtom, List.append_assoc, hread, Except.map]
    simp only [readFeature_append hf, atomOf, Option.some.injEq, hf.2.2, if_false,
      readMarks_marks hs]

theorem stops_slash (slash : Slash) (s : List Char) : Stops (slash.char :: s) := by
  intro c hc
  cases hc
  cases slash <;> exact ⟨rfl, by decide⟩

theorem stops_close (s : List Char) : Stops (')' :: s) := by
  intro c hc
  cases hc
  exact ⟨rfl, by decide⟩

theorem stops_nil : Stops [] := by simp [Stops]

-- The text of a category, by its parts.

/-- The text of a category inside another one. -/
def inner (c : Category) : List Char := chars.nested c c.chars

theorem inner_functor (x : Category) (slash : Slash) (y : Category) :
    (functor x slash y).inner = '(' :: (x.inner ++ slash.char :: y.inner) ++ [')'] := by
  simp [inner, chars, chars.nested, isFunctor]

theorem inner_conj (x : Category) : (conj x).inner = x.inner ++ conjMark := by
  simp [inner, chars, chars.nested, isFunctor]

theorem inner_atom (base : String) (feature : Option String) :
    (atom base feature).inner = base.toList ++ featureChars feature := by
  simp [inner, chars, chars.nested, isFunctor]

end Category

end Categorial
