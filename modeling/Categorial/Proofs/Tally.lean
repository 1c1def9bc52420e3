import Categorial.Tally
import Mathlib.Algebra.Ring.Nat
import Mathlib.Data.List.Count
import Mathlib.Data.List.Induction
import Mathlib.Data.List.Sort
set_option autoImplicit false

/-!
What tallies hold. Their counters turn over after `2 ^ 32`, so a sum of counts is the sum of the occurrences up to whole
turns, and exactly that sum if it is smaller. A list has one tally, as far as its order does not matter.
-/

namespace Categorial

namespace Tally

/-- Counters come to this after so many occurrences: whole turns may be missing. -/
structure Wraps (m n : Nat) : Prop where
  le : m ≤ n
  mod_eq : m % 2 ^ 32 = n % 2 ^ 32

namespace Wraps

variable {m n m' n' : Nat}

theorem refl (n : Nat) : Wraps n n := ⟨Nat.le_refl n, rfl⟩

theorem trans {k : Nat} (h : Wraps m n) (h' : Wraps n k) : Wraps m k :=
  ⟨Nat.le_trans h.le h'.le, h.mod_eq.trans h'.mod_eq⟩

theorem add (h : Wraps m n) (h' : Wraps m' n') : Wraps (m + m') (n + n') :=
  ⟨Nat.add_le_add h.le h'.le, by rw [Nat.add_mod, h.mod_eq, h'.mod_eq, ← Nat.add_mod]⟩

theorem mod (n : Nat) : Wraps (n % 2 ^ 32) n := ⟨Nat.mod_le n _, Nat.mod_mod n _⟩

theorem eq_of_lt (h : Wraps m n) (hn : n < 2 ^ 32) : m = n := by
  have hmod := h.mod_eq
  rwa [Nat.mod_eq_of_lt hn, Nat.mod_eq_of_lt (Nat.lt_of_le_of_lt h.le hn)] at hmod

end Wraps

variable {κ : Type}

/-- The key has an entry. -/
def Has (t : Tally κ) (k : κ) : Prop := ∃ n, (k, n) ∈ t.entries

/-- All counts of the keys that pass a test. -/
def weight (p : κ → Bool) (t : Tally κ) : Nat := (t.entries.map fun e => if p e.1 then e.2 else 0).sum

theorem weight_congr {p q : κ → Bool} {t : Tally κ} (h : ∀ e ∈ t.entries, p e.1 = q e.1) : t.weight p = t.weight q :=
  congrArg List.sum (List.map_congr_left fun e he => by rw [h e he])

theorem weight_eq_zero_iff {p : κ → Bool} {t : Tally κ} :
    t.weight p = 0 ↔ ∀ e ∈ t.entries, p e.1 = true → e.2 = 0 := by
  simp only [weight, List.sum_eq_zero_iff_forall_eq_nat, List.forall_mem_map, ite_eq_right_iff]

variable [Ord κ]

def Ascending (entries : List (κ × Nat)) : Prop := entries.Pairwise fun x y => compare x.1 y.1 = .lt

theorem Ascending.nodup [Std.ReflOrd κ] {entries : List (κ × Nat)} (h : Ascending entries) :
    (entries.map Prod.fst).Nodup := by
  refine List.pairwise_map.mpr (h.imp fun {x y} hlt heq => ?_)
  rw [heq, Std.ReflOrd.compare_self] at hlt
  cases hlt

theorem mem_alterEntries_of_mem (f : Option Nat → Nat) (k : κ) {entries : List (κ × Nat)} {e : κ × Nat}
    (h : e ∈ entries) : e ∈ alterEntries f k entries ∨ (e.1, f (some e.2)) ∈ alterEntries f k entries := by
  induction entries with
  | nil => cases h
  | cons first rest ih =>
    obtain ⟨k', n⟩ := first
    simp only [alterEntries]
    cases compare k k' with
    | lt => exact .inl (List.mem_cons_of_mem _ h)
    | eq =>
      rcases List.mem_cons.mp h with rfl | h
      · exact .inr List.mem_cons_self
      · exact .inl (List.mem_cons_of_mem _ h)
    | gt =>
      rcases List.mem_cons.mp h with rfl | h
      · exact .inl List.mem_cons_self
      · exact (ih h).imp (List.mem_cons_of_mem _) (List.mem_cons_of_mem _)

theorem Has.alter {t : Tally κ} {k : κ} (h : t.Has k) (f : Option Nat → Nat) (j : κ) : (t.alter f j).Has k := by
  obtain ⟨n, hn⟩ := h
  exact (mem_alterEntries_of_mem f j hn).elim (fun hmem => ⟨n, hmem⟩) fun hmem => ⟨_, hmem⟩

section

variable {β : Type} (key : β → κ) (f : β → Option Nat → Nat) {xs : List β}

theorem Has.foldl_alter {t : Tally κ} {k : κ} (h : t.Has k) :
    (xs.foldl (fun t x => t.alter (f x) (key x)) t).Has k := by
  induction xs generalizing t with
  | nil => exact h
  | cons x xs ih => exact ih (h.alter (f x) (key x))

end

variable [Std.LawfulEqOrd κ]

theorem mem_alterEntries {f : Option Nat → Nat} {k : κ} {entries : List (κ × Nat)} {e : κ × Nat}
    (h : e ∈ alterEntries f k entries) :
    e.1 = k ∧ (∃ n, e.2 = f n) ∨ e ∈ entries := by
  induction entries with
  | nil =>
    simp only [alterEntries, List.mem_singleton] at h
    exact .inl ⟨h ▸ rfl, none, h ▸ rfl⟩
  | cons first rest ih =>
    obtain ⟨k', n⟩ := first
    simp only [alterEntries] at h
    cases hcmp : compare k k' with
    | lt =>
      simp only [hcmp, List.mem_cons] at h
      rcases h with rfl | h
      · exact .inl ⟨rfl, none, rfl⟩
      · exact .inr (List.mem_cons.mpr h)
    | eq =>
      obtain rfl := Std.LawfulEqOrd.eq_of_compare hcmp
      simp only [hcmp, List.mem_cons] at h
      rcases h with rfl | h
      · exact .inl ⟨rfl, some n, rfl⟩
      · exact .inr (List.mem_cons_of_mem _ h)
    | gt =>
      simp only [hcmp, List.mem_cons] at h
      rcases h with rfl | h
      · exact .inr List.mem_cons_self
      · exact (ih h).imp_right (List.mem_cons_of_mem _)

theorem has_alter (t : Tally κ) (f : Option Nat → Nat) (k : κ) : (t.alter f k).Has k := by
  have hentries (entries : List (κ × Nat)) : ∃ n, (k, n) ∈ alterEntries f k entries := by
    induction entries with
    | nil => exact ⟨_, List.mem_cons_self⟩
    | cons first rest ih =>
      obtain ⟨k', n⟩ := first
      simp only [alterEntries]
      cases hcmp : compare k k' with
      | lt => exact ⟨_, List.mem_cons_self⟩
      | eq =>
        obtain rfl := Std.LawfulEqOrd.eq_of_compare hcmp
        exact ⟨_, List.mem_cons_self⟩
      | gt => exact ih.imp fun _ => List.mem_cons_of_mem _
  exact hentries t.entries

theorem ascending_alterEntries [Std.TransOrd κ] (f : Option Nat → Nat) (k : κ) {entries : List (κ × Nat)}
    (h : Ascending entries) : Ascending (alterEntries f k entries) := by
  induction entries with
  | nil => simp [alterEntries, Ascending]
  | cons first rest ih =>
    obtain ⟨k', n⟩ := first
    obtain ⟨hfirst, hrest⟩ := List.pairwise_cons.mp h
    simp only [alterEntries]
    cases hcmp : compare k k' with
    | lt =>
      refine List.pairwise_cons.mpr ⟨fun e he => ?_, h⟩
      rcases List.mem_cons.mp he with rfl | he
      · exact hcmp
      · exact Std.TransCmp.lt_trans hcmp (hfirst e he)
    | eq => exact List.pairwise_cons.mpr ⟨hfirst, hrest⟩
    | gt =>
      refine List.pairwise_cons.mpr ⟨fun e he => ?_, ih hrest⟩
      rcases mem_alterEntries he with ⟨hk, _⟩ | he
      · rw [hk]
        exact Std.OrientedCmp.lt_of_gt hcmp
      · exact hfirst e he

theorem mem_alterEntries_iff [Std.TransOrd κ] {f : Option Nat → Nat} {k : κ} {entries : List (κ × Nat)}
    (hascending : Ascending entries) {e : κ × Nat} : e ∈ alterEntries f k entries ↔
      e.1 ≠ k ∧ e ∈ entries ∨ e.1 = k ∧ ((∃ n, (k, n) ∈ entries ∧ e.2 = f (some n)) ∨
        (∀ n, (k, n) ∉ entries) ∧ e.2 = f none) := by
  induction entries with
  | nil => simp [alterEntries, Prod.ext_iff]
  | cons first rest ih =>
    obtain ⟨k', n⟩ := first
    obtain ⟨hfirst, hrest⟩ := List.pairwise_cons.mp hascending
    have hbehind (j : κ) (m : Nat) (hmem : (j, m) ∈ rest) : compare k' j = .lt := hfirst _ hmem
    simp only [alterEntries]
    cases hcmp : compare k k' with
    | lt =>
      have hnone (m : Nat) : (k, m) ∉ (k', n) :: rest := fun hmem => by
        rcases List.mem_cons.mp hmem with heq | hmem
        · simp_all
        · simpa using Std.TransCmp.lt_trans hcmp (hbehind k m hmem)
      grind
    | eq =>
      obtain rfl := Std.LawfulEqOrd.eq_of_compare hcmp
      have hnone (m : Nat) : (k, m) ∉ rest := fun hmem => by simpa using hbehind k m hmem
      grind
    | gt =>
      have hne : k' ≠ k := fun heq => by simp [heq] at hcmp
      rw [List.mem_cons, ih hrest]
      grind

theorem lt_of_mem_alterEntries {f : Option Nat → Nat} {k : κ} {entries : List (κ × Nat)} {limit : Nat}
    (hf : ∀ m, f m < limit) (h : ∀ e ∈ entries, e.2 < limit) : ∀ e ∈ alterEntries f k entries, e.2 < limit := by
  intro e he
  rcases mem_alterEntries he with ⟨-, m, hm⟩ | hold
  · exact hm ▸ hf m
  · exact h e hold

/-! What counts come to when others are added. -/

/-- A change that adds so much to a count, up to whole turns. -/
structure Adds (f : Option Nat → Nat) (n : Nat) : Prop where
  absent : Wraps (f none) n
  present : ∀ m, Wraps (f (some m)) (m + n)

theorem adds_add (n : Nat) : Adds (fun m => (m.getD 0 + n) % UInt32.size) n :=
  ⟨by simpa using Wraps.mod n, fun m => .mod (m + n)⟩

theorem adds_touch : Adds (·.getD 0) 0 := ⟨.refl 0, .refl⟩

/-- What is added counts if its key passes, whether or not it was there. -/
theorem weight_alter {f : Option Nat → Nat} {n : Nat} (hf : Adds f n) (p : κ → Bool) (t : Tally κ) (k : κ) :
    Wraps ((t.alter f k).weight p) (t.weight p + if p k then n else 0) := by
  obtain ⟨entries⟩ := t
  simp only [weight, alter]
  induction entries with
  | nil =>
    simp only [alterEntries, List.map_cons, List.map_nil, List.sum_cons, List.sum_nil, Nat.add_zero, Nat.zero_add]
    split
    · exact hf.absent
    · exact .refl 0
  | cons first rest ih =>
    obtain ⟨k', m⟩ := first
    simp only [alterEntries]
    cases hcmp : compare k k' with
    | lt =>
      simp only [List.map_cons, List.sum_cons]
      rw [Nat.add_comm _ (if p k then n else 0)]
      refine .add ?_ (.refl _)
      split
      · exact hf.absent
      · exact .refl 0
    | eq =>
      obtain rfl := Std.LawfulEqOrd.eq_of_compare hcmp
      simp only [List.map_cons, List.sum_cons]
      rw [Nat.add_right_comm]
      refine .add ?_ (.refl _)
      split
      · exact hf.present m
      · exact .refl 0
    | gt =>
      simp only [List.map_cons, List.sum_cons]
      rw [Nat.add_assoc]
      exact .add (.refl _) ih

theorem weight_add_of_zero (p : κ → Bool) {t : Tally κ} {k : κ} {n : Nat} (hn : n < 2 ^ 32)
    (hzero : ∀ m, (k, m) ∈ t.entries → m = 0) : (t.add k n).weight p = t.weight p + if p k then n else 0 := by
  have hmod : n % UInt32.size = n := Nat.mod_eq_of_lt hn
  obtain ⟨entries⟩ := t
  simp only [weight, add, alter] at hzero ⊢
  induction entries with
  | nil =>
    rw [alterEntries, Option.getD_none, Nat.zero_add, hmod]
    simp
  | cons first rest ih =>
    obtain ⟨k', m⟩ := first
    simp only [alterEntries]
    cases hcmp : compare k k' with
    | lt =>
      simp only [List.map_cons, List.sum_cons, Option.getD_none, Nat.zero_add, hmod]
      omega
    | eq =>
      obtain rfl := Std.LawfulEqOrd.eq_of_compare hcmp
      obtain rfl := hzero m List.mem_cons_self
      simp only [List.map_cons, List.sum_cons, Option.getD_some, Nat.zero_add, hmod]
      split <;> omega
    | gt =>
      simp only [List.map_cons, List.sum_cons, ih fun m hm => hzero m (List.mem_cons_of_mem _ hm)]
      omega

/-- Counts that are added under new keys, each of them once and to nothing, count as they did. -/
theorem weight_foldl_add_of_nodup {κ' : Type} (p : κ → Bool) (f : κ' → κ) {entries : List (κ' × Nat)} {t : Tally κ}
    (hkeys : (entries.map fun e => f e.1).Nodup) (hsmall : ∀ e ∈ entries, e.2 < 2 ^ 32)
    (hzero : ∀ e ∈ t.entries, e.1 ∈ entries.map (fun e => f e.1) → e.2 = 0) :
    (entries.foldl (fun t (k, n) => t.add (f k) n) t).weight p = t.weight p + weight (fun k => p (f k)) ⟨entries⟩ := by
  induction entries generalizing t with
  | nil => rfl
  | cons first rest ih =>
    obtain ⟨k, n⟩ := first
    rw [List.map_cons, List.nodup_cons] at hkeys
    obtain ⟨hn, hrest⟩ := List.forall_mem_cons.mp hsmall
    have hself : ∀ m, (f k, m) ∈ t.entries → m = 0 := fun m hm => hzero _ hm (by simp)
    -- the keys that are still to come are not the one just written
    have hlater : ∀ e ∈ (t.add (f k) n).entries, e.1 ∈ rest.map (fun e => f e.1) → e.2 = 0 := by
      intro e he hmem
      rcases mem_alterEntries he with ⟨hkey, -⟩ | hold
      · exact absurd (hkey ▸ hmem) hkeys.1
      · exact hzero e hold (List.mem_cons_of_mem _ hmem)
    rw [List.foldl_cons, ih hkeys.2 hrest hlater, weight_add_of_zero p hn hself]
    simp only [weight, List.map_cons, List.sum_cons]
    omega

theorem count_foldl_clear (keys : List κ) : ∀ {t : Tally κ}, (∀ e ∈ t.entries, e.2 = 0) →
    ∀ e ∈ (keys.foldl clear t).entries, e.2 = 0 := by
  induction keys with
  | nil => exact fun h => h
  | cons k keys ih =>
    refine fun h => ih fun e he => ?_
    rcases mem_alterEntries he with ⟨-, _, hzero⟩ | hold
    · exact hzero
    · exact h e hold

section

variable {β : Type} (key : β → κ) (f : β → Option Nat → Nat) (xs : List β)

theorem ascending_foldl_alter [Std.TransOrd κ] : ∀ {t : Tally κ}, Ascending t.entries →
    Ascending (xs.foldl (fun t x => t.alter (f x) (key x)) t).entries := by
  induction xs with
  | nil => exact fun h => h
  | cons x xs ih => exact fun h => ih (ascending_alterEntries _ _ h)

theorem key_of_mem_foldl_alter {e : κ × Nat} : ∀ {t : Tally κ},
    e ∈ (xs.foldl (fun t x => t.alter (f x) (key x)) t).entries →
      (∃ e' ∈ t.entries, e'.1 = e.1) ∨ ∃ x ∈ xs, key x = e.1 := by
  induction xs with
  | nil => exact fun h => .inl ⟨e, h, rfl⟩
  | cons x xs ih =>
    intro t h
    rcases ih h with ⟨e', he', hkey⟩ | ⟨y, hy, hkey⟩
    · rcases mem_alterEntries he' with ⟨hx, -⟩ | hold
      · exact .inr ⟨x, by simp, hx.symm.trans hkey⟩
      · exact .inl ⟨e', hold, hkey⟩
    · exact .inr ⟨y, by simp [hy], hkey⟩

theorem has_foldl_alter {x : β} (hx : x ∈ xs) (t : Tally κ) :
    (xs.foldl (fun t x => t.alter (f x) (key x)) t).Has (key x) := by
  induction xs generalizing t with
  | nil => cases hx
  | cons first xs ih =>
    rw [List.foldl_cons]
    rcases List.mem_cons.mp hx with rfl | hx
    · exact (has_alter t (f x) (key x)).foldl_alter key f
    · exact ih hx _

end

theorem key_of_mem_ofList {keys : List κ} {e : κ × Nat} (h : e ∈ (ofList keys).toList) : e.1 ∈ keys := by
  rcases key_of_mem_foldl_alter id (fun _ o => (o.getD 0 + 1) % UInt32.size) keys h with ⟨_, hnone, -⟩ | ⟨k, hk, hkey⟩
  · cases hnone
  · exact hkey ▸ hk

/-! The tally of a list. -/

section

variable [DecidableEq κ]

/-- The tally counts the keys of a list. -/
structure Counts (t : Tally κ) (keys : List κ) : Prop where
  ascending : Ascending t.entries
  mem_iff : ∀ e, e ∈ t.entries ↔ e.1 ∈ keys ∧ e.2 = keys.count e.1 % 2 ^ 32

theorem Counts.add [Std.TransOrd κ] {t : Tally κ} {keys : List κ} (h : t.Counts keys) (k : κ) :
    (t.add k 1).Counts (keys ++ [k]) := by
  refine ⟨ascending_alterEntries _ k h.ascending, fun ⟨j, m⟩ => ?_⟩
  rw [Tally.add, alter, mem_alterEntries_iff h.ascending]
  simp only [h.mem_iff, List.mem_append, List.mem_singleton, List.count_append, List.count_singleton, beq_iff_eq]
  by_cases hj : j = k
  · subst hj
    by_cases hmem : j ∈ keys
    · simp [hmem, Nat.add_mod]
    · simp [hmem, List.count_eq_zero.mpr hmem]
  · simp [hj, Ne.symm hj]

theorem counts_ofList [Std.TransOrd κ] (keys : List κ) : (ofList keys).Counts keys := by
  induction keys using List.reverseRecOn with
  | nil => exact ⟨.nil, by simp [ofList, empty]⟩
  | append_singleton keys k ih =>
    rw [ofList, List.foldl_append]
    exact ih.add k

theorem Counts.eq [Std.TransOrd κ] {s t : Tally κ} {keys keys' : List κ} (hs : s.Counts keys) (ht : t.Counts keys')
    (h : keys.Perm keys') : s = t := by
  have hirrefl : Std.Irrefl fun x y : κ × Nat => compare x.1 y.1 = .lt := ⟨fun x => by simp⟩
  have hantisymm : Std.Antisymm fun x y : κ × Nat => compare x.1 y.1 = .lt :=
    ⟨fun x y hlt hgt => absurd (Std.OrientedCmp.gt_of_lt hlt) (by simp [hgt])⟩
  have hentries : s.entries = t.entries := hs.ascending.eq_of_mem_iff ht.ascending fun e => by
    rw [hs.mem_iff, ht.mem_iff, h.mem_iff, h.count_eq]
  cases s
  cases t
  rw [Tally.mk.injEq]
  exact hentries

theorem ofList_eq_of_perm [Std.TransOrd κ] {keys keys' : List κ} (h : keys.Perm keys') : ofList keys = ofList keys' :=
  (counts_ofList keys).eq (counts_ofList keys') h

theorem ofList_replicate [Std.TransOrd κ] {n : Nat} (hn : n ≠ 0) (k : κ) :
    ofList (List.replicate n k) = ⟨[(k, n % 2 ^ 32)]⟩ := by
  refine (counts_ofList _).eq ⟨List.pairwise_singleton _ _, fun e => ?_⟩ (.refl (List.replicate n k))
  rw [List.mem_singleton, List.mem_replicate, Prod.ext_iff]
  refine ⟨fun ⟨hkey, hcount⟩ => ⟨⟨hn, hkey⟩, ?_⟩, fun ⟨⟨_, hkey⟩, hcount⟩ => ⟨hkey, ?_⟩⟩
  · rw [hcount, hkey, List.count_replicate_self]
  · rw [hcount, hkey, List.count_replicate_self]

end

end Tally

namespace Tally

variable {κ κ' : Type} {g : κ → Option κ'}

/-- Entries by new keys; those whose keys have none are gone. -/
def rename (g : κ → Option κ') (entries : List (κ × Nat)) : List (κ' × Nat) :=
  entries.filterMap fun (k, n) => (g k).map fun new => (new, n)

theorem mem_rename {entries : List (κ × Nat)} {new : κ'} {n : Nat} :
    (new, n) ∈ rename g entries ↔ ∃ k, (k, n) ∈ entries ∧ g k = some new := by
  simp [rename]

theorem count_filterMap [DecidableEq κ] [DecidableEq κ'] {k : κ} {new : κ'} (hk : g k = some new)
    (hinj : ∀ j, g j = some new → j = k) (keys : List κ) : (keys.filterMap g).count new = keys.count k := by
  induction keys with
  | nil => rfl
  | cons j keys ih =>
    by_cases hj : j = k
    · subst hj
      rw [List.filterMap_cons_some hk, List.count_cons_self, List.count_cons_self, ih]
    · rw [List.count_cons_of_ne hj, List.filterMap_cons, ← ih]
      cases hnew : g j with
      | none => rfl
      | some new' =>
        have hne : new' ≠ new := fun heq => hj (hinj j (heq ▸ hnew))
        exact List.count_cons_of_ne hne

variable [Ord κ] [Ord κ']
  (hmono : ∀ i j a b, g i = some a → g j = some b → compare i j = .lt → compare a b = .lt)

include hmono

theorem Ascending.rename {entries : List (κ × Nat)} (h : Ascending entries) : Ascending (rename g entries) := by
  refine List.pairwise_filterMap.mpr (h.imp fun {x y} hlt a ha b hb => ?_)
  obtain ⟨i, hi, rfl⟩ := Option.map_eq_some_iff.mp ha
  obtain ⟨j, hj, rfl⟩ := Option.map_eq_some_iff.mp hb
  exact hmono _ _ _ _ hi hj hlt

theorem Counts.rename [DecidableEq κ] [DecidableEq κ'] [Std.LawfulEqOrd κ] [Std.OrientedOrd κ] [Std.ReflOrd κ']
    {t : Tally κ} {keys : List κ} (h : t.Counts keys) : Counts ⟨rename g t.entries⟩ (keys.filterMap g) := by
  have hinj : ∀ i j a, g i = some a → g j = some a → i = j := by
    intro i j a hi hj
    cases hcmp : compare i j with
    | eq => exact Std.LawfulEqOrd.eq_of_compare hcmp
    | lt => simpa using hmono i j a a hi hj hcmp
    | gt => simpa using hmono j i a a hj hi (Std.OrientedCmp.lt_of_gt hcmp)
  refine ⟨h.ascending.rename hmono, fun ⟨new, n⟩ => ?_⟩
  rw [mem_rename, List.mem_filterMap]
  constructor
  · rintro ⟨k, hk, hnew⟩
    obtain ⟨hmem, hn⟩ := (h.mem_iff _).mp hk
    exact ⟨⟨k, hmem, hnew⟩, by rw [count_filterMap hnew fun j hj => hinj j k new hj hnew, hn]⟩
  · rintro ⟨⟨k, hmem, hnew⟩, hn⟩
    refine ⟨k, (h.mem_iff _).mpr ⟨hmem, ?_⟩, hnew⟩
    rw [hn, count_filterMap hnew fun j hj => hinj j k new hj hnew]

end Tally

end Categorial
