import Categorial.Proofs.Feature.Registered
set_option autoImplicit false

namespace Categorial

/-- The index leads from what is kept to its position. -/
def Positions {κ : Type} [BEq κ] [Hashable κ] (index : Std.HashMap κ Nat) (kept : Array κ) : Prop :=
  ∀ (k : κ) (i : Nat), index[k]? = some i ↔ kept[i]? = some k

namespace Positions

variable {κ : Type} [BEq κ] [Hashable κ] {index : Std.HashMap κ Nat} {kept : Array κ}

/-- What is kept is kept once. -/
theorem inj (h : Positions index kept) {k : κ} {i j : Nat} (hi : kept[i]? = some k) (hj : kept[j]? = some k) :
    i = j :=
  Option.some.inj (((h k i).mpr hi).symm.trans ((h k j).mpr hj))

theorem nodup (h : Positions index kept) : kept.toList.Nodup := by
  refine List.pairwise_iff_getElem.mpr fun i j hi hj hlt heq => ?_
  have hsame : i = j := h.inj (Array.getElem?_eq_getElem (by simpa using hi))
    (by rw [← Array.getElem?_toList, List.getElem?_eq_getElem hj, ← heq]; rfl)
  omega

theorem lt_size (h : Positions index kept) {k : κ} {i : Nat} (hi : index[k]? = some i) : i < kept.size :=
  (Array.getElem?_eq_some_iff.mp ((h k i).mp hi)).1

variable [LawfulBEq κ] [LawfulHashable κ]

theorem empty : Positions (∅ : Std.HashMap κ Nat) #[] := by
  intro k i
  simp

theorem push (h : Positions index kept) {k : κ} (hnew : index[k]? = none) :
    Positions (index.insert k kept.size) (kept.push k) := by
  intro k' i
  rw [Std.HashMap.getElem?_insert, Array.getElem?_push]
  by_cases hk : k = k'
  · subst hk
    have hold : kept[i]? ≠ some k := fun hkept => by
      rw [(h k i).mpr hkept] at hnew
      cases hnew
    by_cases hi : i = kept.size
    · simp [hi]
    · simp only [BEq.rfl, if_true, Option.some.injEq, hi, if_false, hold, iff_false]
      exact fun heq => hi heq.symm
  · have hkey : (k == k') = false := by simpa using hk
    rw [hkey, if_neg Bool.false_ne_true, h k' i]
    by_cases hi : i = kept.size
    · simp [hi, hk]
    · rw [if_neg hi]

/-- An index to which the positions of new entries are added in order. -/
theorem append (h : Positions index kept) {ks : List κ} (hnodup : ks.Nodup) (hnew : ∀ k ∈ ks, k ∉ kept) :
    Positions ((ks.zipIdx kept.size).foldl (fun index (k, i) => index.insert k i) index) (kept ++ ks.toArray) := by
  induction ks generalizing index kept with
  | nil => simpa using h
  | cons k ks ih =>
    obtain ⟨hk, hnodup⟩ := List.nodup_cons.mp hnodup
    have hnone : index[k]? = none := by
      cases hget : index[k]? with
      | none => rfl
      | some i => exact absurd (Array.mem_of_getElem? ((h k i).mp hget)) (hnew k (by simp))
    have hrest : ∀ k' ∈ ks, k' ∉ kept.push k := by
      intro k' hk' hmem
      rcases Array.mem_push.mp hmem with hold | rfl
      · exact hnew k' (by simp [hk']) hold
      · exact hk hk'
    have happend := ih (h.push hnone) hnodup hrest
    rw [Array.size_push] at happend
    rw [List.zipIdx_cons, List.foldl_cons]
    simpa using happend

end Positions

namespace Symbols

def Consistent (s : Symbols) : Prop := Positions s.ids s.strings

theorem Consistent.intern {s : Symbols} (h : s.Consistent) (x : String) : (s.intern x).2.Consistent := by
  unfold Symbols.intern
  cases hx : s.ids[x]? with
  | some id => exact h
  | none => exact h.push hx

end Symbols

theorem consistent_findSymbol (access : Access) (x : Option String) {s : Symbols} (h : s.Consistent) :
    ((findSymbol access x).run s).2.Consistent := by
  cases x with
  | none => exact h
  | some x =>
    cases access with
    | known => exact h
    | grow => exact h.intern x

/-- So does looking for the features of a step. -/
theorem Expansion.consistent_features (access : Access) (ctx : Context) (rule : Rule) (e : Expansion) {s : Symbols}
    (h : s.Consistent) : ((e.features access ctx rule).run s).2.Consistent := by
  have hbind : ∀ {β : Type} {x : Option String} {k : Option Nat → Finding β} {s : Symbols}, s.Consistent →
      (∀ id (s : Symbols), s.Consistent → ((k id).run s).2.Consistent) →
        ((findSymbol access x >>= k).run s).2.Consistent :=
    fun {_ x _ _} h hk => hk _ _ (consistent_findSymbol access x h)
  cases e with
  | lexical => exact hbind h fun _ _ h => hbind h fun _ _ h => h
  | unary => exact hbind h fun _ _ h => h
  | binary =>
    exact hbind h fun _ _ h => hbind h fun _ _ h => hbind h fun _ _ h => hbind h fun _ _ h => h
  | top => exact hbind h fun _ _ h => h

namespace FeatureTable

structure Consistent (t : FeatureTable) : Prop where
  keys : Positions t.index t.keys
  counts : t.counts.size = t.keys.size
  symbols : t.symbols.Consistent

theorem consistent_empty : Consistent .empty := ⟨.empty, rfl, .empty⟩

namespace Consistent

variable {t : FeatureTable}

theorem insert (h : t.Consistent) {key : Feature} (hnew : t.get? key = none) : (t.insert key).Consistent :=
  ⟨h.keys.push hnew, by simp [FeatureTable.insert, h.counts], h.symbols⟩

theorem bump (h : t.Consistent) (i : Nat) : (t.bump i).Consistent :=
  ⟨h.keys, by simp [FeatureTable.bump, h.counts], h.symbols⟩

theorem register (h : t.Consistent) (key : Feature) : (t.register key).2.Consistent := by
  unfold FeatureTable.register
  cases hkey : t.get? key with
  | some i => exact h.bump i
  | none =>
    cases t.frozen with
    | true => exact h
    | false => exact (h.insert hkey).bump _

end Consistent

theorem size_register (t : FeatureTable) (key : Feature) : t.size ≤ (t.register key).2.size := by
  unfold register
  cases t.get? key with
  | some i => exact Nat.le_refl _
  | none =>
    cases t.frozen with
    | true => exact Nat.le_refl _
    | false => simp [size, bump, insert]

theorem size_registerAll (keys : List Feature) : ∀ t : FeatureTable, t.size ≤ (t.registerAll keys).2.size := by
  induction keys with
  | nil => exact fun _ => Nat.le_refl _
  | cons key keys ih => exact fun t => Nat.le_trans (t.size_register key) (ih _)

theorem Consistent.registerAll (keys : List Feature) : ∀ {t : FeatureTable}, t.Consistent →
    (t.registerAll keys).2.Consistent := by
  induction keys with
  | nil => exact fun h => h
  | cons key keys ih => exact fun h => ih (h.register key)

end FeatureTable

end Categorial
