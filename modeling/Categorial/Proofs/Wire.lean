import Mathlib.Algebra.Ring.Nat
import Mathlib.Data.List.Basic
import Categorial.Wire
set_option autoImplicit false

/-!
Byte formats that are exact. The bytes in front are read as a value if they are those that are written for it, and
not otherwise; so a value has one form, and what follows it is left in place. Numbers have this form if their width
holds them, lists if their members have one and their lengths are words of 64 bits.
-/

namespace Categorial

namespace Wire

variable {β γ : Type}

/-- A list whose length is a word of 64 bits, of members as said. -/
def Counted (P : β → Prop) (xs : List β) : Prop := xs.length < 2 ^ 64 ∧ ∀ x ∈ xs, P x

instance (P : β → Prop) [DecidablePred P] (xs : List β) : Decidable (Counted P xs) :=
  inferInstanceAs (Decidable (_ ∧ _))

/-- Reading finds the values that are as said, and each of them exactly behind its own bytes. -/
def Exact (a : Wire β) (P : β → Prop) : Prop :=
  ∀ bytes x rest, a.read bytes = some (x, rest) ↔ P x ∧ bytes = a.write x ++ rest

namespace Exact

variable {a : Wire β} {b : Wire γ} {P : β → Prop} {Q : γ → Prop}

theorem read_append (h : a.Exact P) {x : β} (hx : P x) (rest : List UInt8) :
    a.read (a.write x ++ rest) = some (x, rest) :=
  (h _ x rest).mpr ⟨hx, rfl⟩

theorem write_inj (h : a.Exact P) {x y : β} {rest rest' : List UInt8} (hx : P x) (hy : P y)
    (heq : a.write x ++ rest = a.write y ++ rest') : x = y ∧ rest = rest' := by
  have hread := h.read_append hx rest
  rw [heq, h.read_append hy rest'] at hread
  cases hread
  exact ⟨rfl, rfl⟩

theorem congr {P' : β → Prop} (h : a.Exact P) (hP : ∀ x, P x ↔ P' x) : a.Exact P' :=
  fun bytes x rest => (h bytes x rest).trans (and_congr_left' (hP x))

end Exact

@[simp] theorem length_writeWord (width n : Nat) : (writeWord width n).length = width := by
  induction width generalizing n with
  | zero => rfl
  | succ width ih => rw [writeWord, List.length_cons, ih]

theorem readWord_eq_some_iff {width : Nat} : ∀ {bytes : List UInt8} {n : Nat} {rest : List UInt8},
    readWord width bytes = some (n, rest) ↔ n < 256 ^ width ∧ bytes = writeWord width n ++ rest := by
  induction width with
  | zero =>
    intro bytes n rest
    simp only [readWord, writeWord, Option.some.injEq, Prod.mk.injEq, List.nil_append, Nat.pow_zero, Nat.lt_one_iff]
    exact and_congr_left' eq_comm
  | succ width ih =>
    intro bytes n rest
    cases bytes with
    | nil => simp [readWord, writeWord]
    | cons b bytes =>
      have hread : readWord (width + 1) (b :: bytes) = some (n, rest) ↔
          ∃ high, readWord width bytes = some (high, rest) ∧ b.toNat + 256 * high = n := by
        simp [readWord, Option.bind_eq_some_iff]
      have hbyte := b.toNat_lt
      have hhigh : n / 256 < 256 ^ width ↔ n < 256 ^ (width + 1) := by
        rw [Nat.div_lt_iff_lt_mul (by decide), Nat.pow_succ]
      rw [hread, writeWord, List.cons_append, List.cons.injEq]
      constructor
      · rintro ⟨high, hrest, rfl⟩
        obtain ⟨hlt, rfl⟩ := ih.mp hrest
        have hdiv : (b.toNat + 256 * high) / 256 = high := by omega
        have hmod : UInt8.ofNat (b.toNat + 256 * high) = b := by
          apply UInt8.toNat_inj.mp
          rw [UInt8.toNat_ofNat']
          omega
        rw [← hhigh, hdiv, hmod]
        exact ⟨hlt, rfl, rfl⟩
      · rintro ⟨hlt, rfl, rfl⟩
        refine ⟨n / 256, ih.mpr ⟨hhigh.mpr hlt, rfl⟩, ?_⟩
        rw [UInt8.toNat_ofNat']
        omega

theorem readWord_of_length_lt {width : Nat} {bytes : List UInt8} (h : bytes.length < width) :
    readWord width bytes = none := by
  cases hread : readWord width bytes with
  | none => rfl
  | some found =>
    obtain ⟨-, rfl⟩ := readWord_eq_some_iff.mp hread
    rw [List.length_append, length_writeWord] at h
    omega

theorem exact_word (width : Nat) : (word width).Exact (· < 256 ^ width) := fun _ _ _ => readWord_eq_some_iff

theorem exact_word32 : word32.Exact (· < 2 ^ 32) := exact_word 4

theorem exact_word64 : word64.Exact (· < 2 ^ 64) := exact_word 8

/-- Any byte but 0 and 1 is refused. -/
theorem exact_flag : flag.Exact fun _ => True := by
  intro bytes x rest
  constructor
  · intro h
    unfold flag at h
    simp only at h
    split at h
    · cases h
      exact ⟨trivial, rfl⟩
    · cases h
      exact ⟨trivial, rfl⟩
    · cases h
  · rintro ⟨-, rfl⟩
    cases x <;> rfl

namespace Exact

variable {a : Wire β} {b : Wire γ} {P : β → Prop} {Q : γ → Prop}

theorem both (ha : a.Exact P) (hb : b.Exact Q) : (a.both b).Exact fun x => P x.1 ∧ Q x.2 := by
  intro bytes x rest
  have hread : (a.both b).read bytes = some (x, rest) ↔
      ∃ mid, a.read bytes = some (x.1, mid) ∧ b.read mid = some (x.2, rest) := by
    obtain ⟨x, y⟩ := x
    simp [Wire.both, Option.bind_eq_some_iff]
  have hwrite : (a.both b).write x = a.write x.1 ++ b.write x.2 := rfl
  rw [hread, hwrite, List.append_assoc]
  constructor
  · rintro ⟨mid, hx, hy⟩
    obtain ⟨hP, rfl⟩ := (ha _ _ _).mp hx
    obtain ⟨hQ, rfl⟩ := (hb _ _ _).mp hy
    exact ⟨⟨hP, hQ⟩, rfl⟩
  · rintro ⟨⟨hP, hQ⟩, rfl⟩
    exact ⟨_, ha.read_append hP _, hb.read_append hQ _⟩

theorem mapped (ha : a.Exact P) {toward : β → γ} {back : γ → β} (hback : ∀ y, toward (back y) = y)
    (htoward : ∀ x, back (toward x) = x) : (a.mapped toward back).Exact fun y => P (back y) := by
  intro bytes y rest
  have hread : (a.mapped toward back).read bytes = some (y, rest) ↔ a.read bytes = some (back y, rest) := by
    have hiff : ∀ x, toward x = y ↔ x = back y :=
      fun x => ⟨fun h => by rw [← h, htoward], fun h => by rw [h, hback]⟩
    simp only [Wire.mapped, Option.map_eq_some_iff, Prod.exists, Prod.mk.injEq, hiff]
    constructor
    · rintro ⟨x, mid, h, rfl, rfl⟩
      exact h
    · exact fun h => ⟨_, _, h, rfl, rfl⟩
  rw [hread]
  exact ha bytes (back y) rest

theorem readMany_eq_some_iff (ha : a.Exact P) {n : Nat} : ∀ {bytes : List UInt8} {xs : List β} {rest : List UInt8},
    a.readMany n bytes = some (xs, rest) ↔
      xs.length = n ∧ (∀ x ∈ xs, P x) ∧ bytes = xs.flatMap a.write ++ rest := by
  induction n with
  | zero =>
    intro bytes xs rest
    simp only [readMany, Option.some.injEq, Prod.mk.injEq, List.length_eq_zero_iff]
    constructor
    · rintro ⟨rfl, rfl⟩
      simp
    · rintro ⟨rfl, -, rfl⟩
      simp
  | succ n ih =>
    intro bytes xs rest
    have hread : a.readMany (n + 1) bytes = some (xs, rest) ↔ ∃ x mid xs', a.read bytes = some (x, mid) ∧
        a.readMany n mid = some (xs', rest) ∧ x :: xs' = xs := by
      simp [readMany, Option.bind_eq_some_iff]
    rw [hread]
    constructor
    · rintro ⟨x, mid, xs', hx, hxs, rfl⟩
      obtain ⟨hP, rfl⟩ := (ha _ _ _).mp hx
      obtain ⟨rfl, hall, rfl⟩ := ih.mp hxs
      exact ⟨rfl, List.forall_mem_cons.mpr ⟨hP, hall⟩, by rw [List.flatMap_cons, List.append_assoc]⟩
    · rintro ⟨hlength, hall, rfl⟩
      cases xs with
      | nil => cases hlength
      | cons x xs =>
        obtain ⟨hP, hall⟩ := List.forall_mem_cons.mp hall
        rw [List.flatMap_cons, List.append_assoc]
        exact ⟨x, _, xs, ha.read_append hP _, ih.mpr ⟨Nat.succ.inj hlength, hall, rfl⟩, rfl⟩

theorem list (ha : a.Exact P) : a.list.Exact (Counted P) := by
  intro bytes xs rest
  have hread : a.list.read bytes = some (xs, rest) ↔
      ∃ n mid, word64.read bytes = some (n, mid) ∧ a.readMany n mid = some (xs, rest) := by
    simp [Wire.list, Option.bind_eq_some_iff]
  have hwrite : a.list.write xs = word64.write xs.length ++ xs.flatMap a.write := rfl
  rw [hread, hwrite, List.append_assoc]
  constructor
  · rintro ⟨n, mid, hn, hxs⟩
    obtain ⟨hlt, rfl⟩ := (exact_word64 _ _ _).mp hn
    obtain ⟨rfl, hall, rfl⟩ := ha.readMany_eq_some_iff.mp hxs
    exact ⟨⟨hlt, hall⟩, rfl⟩
  · rintro ⟨⟨hlt, hall⟩, rfl⟩
    exact ⟨xs.length, _, exact_word64.read_append hlt _, ha.readMany_eq_some_iff.mpr ⟨rfl, hall, rfl⟩⟩

end Exact

end Wire

end Categorial
