import Mathlib.Data.List.Forall2
import Mathlib.Data.List.Induction
import Mathlib.Data.List.Nodup
set_option autoImplicit false

namespace Categorial

variable {β γ δ κ : Type}

def numbered (first : Nat) (xs : List β) : List (Nat × β) := (xs.zipIdx first).map Prod.swap

theorem map_snd_numbered (first : Nat) (xs : List β) : (numbered first xs).map Prod.snd = xs := by
  simp [numbered, Function.comp_def]

theorem map_fst_numbered (first : Nat) (xs : List β) :
    (numbered first xs).map Prod.fst = List.range' first xs.length := by
  simp [numbered, Function.comp_def]

theorem nodup_numbered (first : Nat) (xs : List β) : ((numbered first xs).map Prod.fst).Nodup := by
  rw [map_fst_numbered]
  exact List.nodup_range'

theorem mem_numbered {first i : Nat} {xs : List β} {x : β} :
    (i, x) ∈ numbered first xs ↔ first ≤ i ∧ xs[i - first]? = some x := by
  simp [numbered, List.mem_zipIdx_iff_le_and_getElem?_sub]

theorem lookup_numbered (table : Array β) (xs : List β) :
    (List.range' table.size xs.length).filterMap
        (fun i => (table ++ xs.toArray)[i]?.map fun x => (i, x)) = numbered table.size xs := by
  rw [← map_fst_numbered, List.filterMap_map]
  refine (List.filterMap_congr fun p hp => ?_).trans List.filterMap_some
  obtain ⟨i, x⟩ := p
  obtain ⟨hle, hget⟩ := mem_numbered.mp hp
  simp [Array.getElem?_append_right hle, hget]

theorem eraseDups_append_singleton [BEq κ] [LawfulBEq κ] (keys : List κ) (k : κ)
    [Decidable (k ∈ keys.eraseDups)] :
    (keys ++ [k]).eraseDups =
      if k ∈ keys.eraseDups then keys.eraseDups else keys.eraseDups ++ [k] := by
  rw [List.eraseDups_append]
  by_cases h : k ∈ keys
  · simp [List.removeAll, List.mem_eraseDups, h]
  · simp [List.removeAll, List.mem_eraseDups, List.eraseDups_cons, h]

theorem nodup_eraseDups [BEq κ] [LawfulBEq κ] (keys : List κ) : keys.eraseDups.Nodup := by
  induction keys using List.reverseRecOn with
  | nil => simp
  | append_singleton keys k ih =>
    classical
    rw [eraseDups_append_singleton]
    split
    · exact ih
    · rename_i h
      exact List.nodup_append.mpr ⟨ih, by simp, by simpa using fun a ha => ne_of_mem_of_not_mem ha h⟩

theorem eraseReps_cons_cons [BEq κ] (a b : κ) (xs : List κ) : (a :: b :: xs).eraseReps =
    if a == b then (a :: xs).eraseReps else a :: (b :: xs).eraseReps := by
  -- the result grows from behind in the loop
  have hloop (xs acc : List κ) (a : κ) :
      List.eraseRepsBy.loop (· == ·) a xs acc = acc.reverse ++ List.eraseRepsBy.loop (· == ·) a xs [] := by
    induction xs generalizing a acc with
    | nil => simp [List.eraseRepsBy.loop]
    | cons b xs ih =>
      cases hab : a == b with
      | true =>
        rw [List.eraseRepsBy.loop, List.eraseRepsBy.loop, hab]
        exact ih acc a
      | false =>
        rw [List.eraseRepsBy.loop, List.eraseRepsBy.loop, hab]
        rw [ih (a :: acc) b, ih [a] b]
        simp
  rw [List.eraseReps, List.eraseReps, List.eraseReps, List.eraseRepsBy, List.eraseRepsBy, List.eraseRepsBy,
    List.eraseRepsBy.loop]
  cases a == b with
  | true => rfl
  | false => exact hloop xs [a] b

theorem eraseReps_sublist [BEq κ] (xs : List κ) : xs.eraseReps.Sublist xs := by
  cases xs with
  | nil => exact .refl _
  | cons a xs =>
    induction xs generalizing a with
    | nil => exact .refl _
    | cons b xs ih =>
      rw [eraseReps_cons_cons]
      split
      · exact (ih a).trans (.cons_cons a (List.sublist_cons_self b xs))
      · exact .cons_cons a (ih b)

/-- In order, equal entries are neighbours. -/
theorem nodup_eraseReps [BEq κ] [LawfulBEq κ] {r : κ → κ → Prop}
    (hanti : ∀ a b, r a b → r b a → a = b) {xs : List κ} (h : xs.Pairwise r) : xs.eraseReps.Nodup := by
  cases xs with
  | nil => exact .nil
  | cons a xs =>
    induction xs generalizing a with
    | nil => exact List.nodup_singleton a
    | cons b xs ih =>
      obtain ⟨ha, hb⟩ := List.pairwise_cons.mp h
      rw [eraseReps_cons_cons]
      split
      · exact ih a (h.sublist (.cons_cons a (List.sublist_cons_self b xs)))
      · rename_i hne
        refine List.nodup_cons.mpr ⟨fun hmem => ?_, ih b hb⟩
        rcases List.mem_cons.mp ((eraseReps_sublist (b :: xs)).subset hmem) with rfl | hmem
        · exact hne (beq_self_eq_true a)
        · have hab := hanti a b (ha b (List.mem_cons_self ..)) ((List.pairwise_cons.mp hb).1 a hmem)
          exact hne (beq_iff_eq.mpr hab)

theorem not_mem_of_nodup {before after : List κ} {k : κ} (h : (before ++ [k] ++ after).Nodup) :
    k ∉ before := fun hmem =>
  (List.nodup_append.mp (List.nodup_append.mp h).1).2.2 k hmem k (List.mem_singleton.mpr rfl) rfl

theorem nodup_flatMap_of {xs : List β} {f : β → List γ} (hxs : xs.Nodup)
    (hf : ∀ x ∈ xs, (f x).Nodup) (hinj : ∀ x ∈ xs, ∀ y ∈ xs, ∀ z ∈ f x, z ∈ f y → x = y) :
    (xs.flatMap f).Nodup := by
  refine List.nodup_flatMap.mpr ⟨hf, hxs.imp_of_mem fun {x y} hx hy hne z hzx hzy => ?_⟩
  exact hne (hinj x hx y hy z hzx hzy)

/-- Entries with different names stand at one place only. -/
theorem index_eq_of_nodup_map {name : β → γ} {xs : List β} (h : (xs.map name).Nodup) {i j : Nat} {x y : β}
    (hx : xs[i]? = some x) (hy : xs[j]? = some y) (heq : name x = name y) : i = j := by
  obtain ⟨hlt, _⟩ := List.getElem?_eq_some_iff.mp hx
  refine (List.getElem?_inj (by simpa using hlt) h).mp ?_
  rw [List.getElem?_map, List.getElem?_map, hx, hy, Option.map_some, Option.map_some, heq]

theorem mem_of_mem_intercalate {sep : List β} {xss : List (List β)} {x : β} (h : x ∈ sep.intercalate xss) :
    x ∈ sep ∨ ∃ xs ∈ xss, x ∈ xs := by
  induction xss with
  | nil => cases h
  | cons xs rest ih =>
    cases rest with
    | nil =>
      rw [List.intercalate_singleton] at h
      exact .inr ⟨xs, by simp, h⟩
    | cons next rest =>
      rw [List.intercalate_cons_cons, List.mem_append, List.mem_append] at h
      rcases h with (h | h) | h
      · exact .inr ⟨xs, by simp, h⟩
      · exact .inl h
      · exact (ih h).imp id fun ⟨ys, hys, hx⟩ => ⟨ys, by simp [hys], hx⟩

theorem flatMap_sublist {f g : β → List γ} {xs : List β} (h : ∀ x, (f x).Sublist (g x)) :
    (xs.flatMap f).Sublist (xs.flatMap g) := by
  induction xs with
  | nil => exact List.Sublist.refl _
  | cons x xs ih =>
    rw [List.flatMap_cons, List.flatMap_cons]
    exact (h x).append ih

theorem map_filterMap_sublist {g : β → Option γ} {key : γ → δ} {name : β → δ}
    (h : ∀ x y, g x = some y → key y = name x) (xs : List β) :
    ((xs.filterMap g).map key).Sublist (xs.map name) := by
  induction xs with
  | nil => exact List.Sublist.refl _
  | cons x xs ih =>
    cases hx : g x with
    | none =>
      rw [List.filterMap_cons_none hx]
      exact ih.cons _
    | some y =>
      rw [List.filterMap_cons_some hx, List.map_cons, List.map_cons, h x y hx]
      exact ih.cons_cons _

/-- Where the property only holds of an entry if it holds of those before, the first ones that have it are
all that have it. -/
theorem takeWhile_eq_filter {p : β → Bool} {xs : List β}
    (h : xs.Pairwise fun a b => p b = true → p a = true) : xs.takeWhile p = xs.filter p := by
  induction xs with
  | nil => rfl
  | cons x xs ih =>
    obtain ⟨hx, hxs⟩ := List.pairwise_cons.mp h
    by_cases hp : p x = true
    · rw [List.takeWhile_cons_of_pos hp, List.filter_cons_of_pos hp, ih hxs]
    · rw [List.takeWhile_cons_of_neg hp, List.filter_cons_of_neg hp, eq_comm, List.filter_eq_nil_iff]
      exact fun y hy hpy => hp (hx y hy hpy)

theorem takeWhile_prefix_takeWhile {p q : β → Bool} {xs : List β} (h : ∀ x ∈ xs, p x = true → q x = true) :
    xs.takeWhile p <+: xs.takeWhile q := by
  induction xs with
  | nil => exact List.prefix_rfl
  | cons x xs ih =>
    cases hp : p x with
    | false => simp [List.takeWhile_cons, hp]
    | true =>
      have hq : q x = true := h x (by simp) hp
      simp only [List.takeWhile_cons, hp, hq, if_true]
      exact List.cons_prefix_cons.mpr ⟨rfl, ih fun y hy => h y (by simp [hy])⟩

theorem take_filter_eq {p : β → Bool} {xs : List β} {k : Nat}
    (h : ∀ x ∈ xs.take k, p x = true) : (xs.filter p).take k = xs.take k := by
  conv => lhs; rw [← List.take_append_drop k xs, List.filter_append, List.filter_eq_self.mpr h]
  rcases Nat.le_total k xs.length with hle | hle
  · exact List.take_left' (by rw [List.length_take]; omega)
  · rw [List.drop_eq_nil_of_le hle, List.filter_nil, List.append_nil, List.take_take, Nat.min_self]

/-- A `filterMap` tells two lists apart only by what it makes of their entries at some place. -/
theorem filterMap_eq_of_getElem? {g h : β → Option γ} {xs ys : List β}
    (hentry : ∀ i : Nat, xs[i]?.bind g = ys[i]?.bind h) : xs.filterMap g = ys.filterMap h := by
  induction xs generalizing ys with
  | nil =>
    refine (List.filterMap_eq_nil_iff.mpr fun y hy => ?_).symm
    obtain ⟨i, hi⟩ := List.mem_iff_getElem?.mp hy
    simpa [hi] using (hentry i).symm
  | cons x xs ih =>
    cases ys with
    | nil =>
      refine List.filterMap_eq_nil_iff.mpr fun y hy => ?_
      obtain ⟨i, hi⟩ := List.mem_iff_getElem?.mp hy
      simpa [hi] using hentry i
    | cons y ys =>
      have hfirst : g x = h y := by simpa using hentry 0
      have hrest : xs.filterMap g = ys.filterMap h := ih fun i => by simpa using hentry (i + 1)
      rw [List.filterMap_cons, List.filterMap_cons, hfirst, hrest]

theorem filterMap_eq_map_drop {g : β → Option γ} {k : β → γ} {xs : List β} {n : Nat}
    (hbefore : ∀ (i : Nat) (x : β), xs[i]? = some x → i < n → g x = none)
    (hafter : ∀ (i : Nat) (x : β), xs[i]? = some x → n ≤ i → g x = some (k x)) :
    xs.filterMap g = (xs.drop n).map k := by
  have htake : (xs.take n).filterMap g = [] := by
    refine List.filterMap_eq_nil_iff.mpr fun x hx => ?_
    obtain ⟨i, hi⟩ := List.mem_iff_getElem?.mp hx
    rw [List.getElem?_take] at hi
    split at hi
    · exact hbefore i x hi ‹i < n›
    · cases hi
  have hdrop : (xs.drop n).filterMap g = (xs.drop n).map k := by
    refine (List.filterMap_congr fun x hx => ?_).trans (congrFun List.filterMap_eq_map _)
    obtain ⟨i, hi⟩ := List.mem_iff_getElem?.mp hx
    exact hafter (n + i) x (List.getElem?_drop.symm.trans hi) (Nat.le_add_right n i)
  rw [← hdrop]
  conv => lhs; rw [← List.take_append_drop n xs, List.filterMap_append, htake, List.nil_append]

/-- An entry is computed from a table that agrees with the finished one on all earlier entries. -/
theorem getElem?_foldl_push (make : Array β → γ → β) (xs : List γ) :
    (xs.foldl (fun table x => table.push (make table x)) #[]).size = xs.length ∧
      ∀ (i : Nat) (x : γ), xs[i]? = some x → ∃ before : Array β,
        (∀ j < i, before[j]? = (xs.foldl (fun table x => table.push (make table x)) #[])[j]?) ∧
        (xs.foldl (fun table x => table.push (make table x)) #[])[i]? = some (make before x) := by
  induction xs using List.reverseRecOn with
  | nil => simp
  | append_singleton xs x ih =>
    obtain ⟨hsize, hget⟩ := ih
    rw [List.foldl_append, List.foldl_cons, List.foldl_nil]
    generalize xs.foldl (fun table x => table.push (make table x)) #[] = table at hsize hget ⊢
    refine ⟨by simp [hsize], fun i y hy => ?_⟩
    rcases Nat.lt_or_ge i xs.length with hlt | hge
    · rw [List.getElem?_append_left hlt] at hy
      obtain ⟨before, hbefore, hi⟩ := hget i y hy
      refine ⟨before, fun j hj => ?_, ?_⟩
      · rw [hbefore j hj, Array.getElem?_push, if_neg (by omega)]
      · rw [Array.getElem?_push, if_neg (by omega), hi]
    · obtain rfl : i = xs.length := by
        have := (List.getElem?_eq_some_iff.mp hy).1
        rw [List.length_append, List.length_singleton] at this
        omega
      rw [List.getElem?_concat_length] at hy
      cases hy
      refine ⟨table, fun j hj => ?_, ?_⟩
      · rw [Array.getElem?_push, if_neg (by omega)]
      · rw [Array.getElem?_push, if_pos hsize.symm]

section

variable {R : β → γ → Prop} {xs : List β} {ys : List γ}

theorem exists_forall₂ (h : ∀ x ∈ xs, ∃ y, R x y) : ∃ ys, List.Forall₂ R xs ys := by
  induction xs with
  | nil => exact ⟨[], .nil⟩
  | cons x xs ih =>
    obtain ⟨y, hy⟩ := h x (by simp)
    obtain ⟨ys, hys⟩ := ih fun z hz => h z (by simp [hz])
    exact ⟨y :: ys, .cons hy hys⟩

theorem forall_mem_iff_of_forall₂ {P : β → Prop} {Q : γ → Prop} (h : List.Forall₂ R xs ys)
    (hPQ : ∀ x y, R x y → (P x ↔ Q y)) : (∀ x ∈ xs, P x) ↔ ∀ y ∈ ys, Q y := by
  induction h with
  | nil => simp
  | cons hxy _ ih => rw [List.forall_mem_cons, List.forall_mem_cons, hPQ _ _ hxy, ih]

theorem filterMap_eq_of_forall₂ {g : β → Option δ} {k : γ → δ}
    (h : List.Forall₂ (fun x y => g x = some (k y)) xs ys) : xs.filterMap g = ys.map k := by
  induction h with
  | nil => rfl
  | cons hxy _ ih => simp [hxy, ih]

theorem forall₂_filterMap {g : β → Option γ} (h : ∀ x ∈ xs, g x ≠ none) :
    List.Forall₂ (fun x y => g x = some y) xs (xs.filterMap g) := by
  induction xs with
  | nil => exact .nil
  | cons x xs ih =>
    obtain ⟨y, hy⟩ := Option.ne_none_iff_exists'.mp (h x (by simp))
    rw [List.filterMap_cons_some hy]
    exact .cons hy (ih fun z hz => h z (by simp [hz]))

theorem forall₂_filterMap_of_rel {ε : Type} {S : δ → ε → Prop} {g : β → Option δ} {k : γ → Option ε}
    (h : ∀ x y, R x y → Option.Rel S (g x) (k y)) (hlists : List.Forall₂ R xs ys) :
    List.Forall₂ S (xs.filterMap g) (ys.filterMap k) := by
  induction hlists with
  | nil => exact .nil
  | @cons x y _ _ hxy _ ih =>
    have hrel := h x y hxy
    rw [List.filterMap_cons, List.filterMap_cons]
    generalize g x = a, k y = b at hrel
    cases hrel with
    | none => exact ih
    | some hab => exact .cons hab ih

theorem forall₂_of_mapM {g : β → Option γ} (h : xs.mapM g = some ys) :
    List.Forall₂ (fun x y => g x = some y) xs ys := by
  induction xs generalizing ys with
  | nil =>
    cases h
    exact .nil
  | cons x xs ih =>
    rw [List.mapM_cons, Option.bind_eq_bind] at h
    obtain ⟨y, hy, h⟩ := Option.bind_eq_some_iff.mp h
    obtain ⟨rest, hrest, h⟩ := Option.bind_eq_some_iff.mp h
    cases h
    exact .cons hy (ih hrest)

theorem mapM_eq_some_of_forall₂ {g : β → Option γ} (h : List.Forall₂ (fun x y => g x = some y) xs ys) :
    xs.mapM g = some ys := by
  induction h with
  | nil => rfl
  | cons hx _ ih =>
    rw [List.mapM_cons, hx, ih]
    rfl

theorem exists_mapM {g : β → Option γ} (h : ∀ x ∈ xs, ∃ y, g x = some y) : ∃ ys, xs.mapM g = some ys := by
  obtain ⟨ys, hys⟩ := exists_forall₂ h
  exact ⟨ys, mapM_eq_some_of_forall₂ hys⟩

theorem filterMap_eq_of_mapM {g : β → Option γ} (h : xs.mapM g = some ys) : xs.filterMap g = ys := by
  rw [filterMap_eq_of_forall₂ (k := id) (forall₂_of_mapM h), List.map_id]

theorem getElem?_left_of_forall₂ (h : List.Forall₂ R xs ys) {i : Nat} {y : γ} (hy : ys[i]? = some y) :
    ∃ x, xs[i]? = some x ∧ R x y := by
  induction h generalizing i with
  | nil => simp at hy
  | cons hxy _ ih =>
    cases i with
    | zero =>
      cases hy
      exact ⟨_, rfl, hxy⟩
    | succ i => exact ih hy

theorem getElem?_right_of_forall₂ (h : List.Forall₂ R xs ys) {i : Nat} {x : β} (hx : xs[i]? = some x) :
    ∃ y, ys[i]? = some y ∧ R x y := by
  induction h generalizing i with
  | nil => simp at hx
  | cons hxy _ ih =>
    cases i with
    | zero =>
      cases hx
      exact ⟨_, rfl, hxy⟩
    | succ i => exact ih hx

theorem mem_left_of_forall₂ (h : List.Forall₂ R xs ys) {y : γ} (hy : y ∈ ys) : ∃ x ∈ xs, R x y := by
  obtain ⟨i, hi⟩ := List.mem_iff_getElem?.mp hy
  obtain ⟨x, hx, hxy⟩ := getElem?_left_of_forall₂ h hi
  exact ⟨x, List.mem_of_getElem? hx, hxy⟩

theorem exists_mem_zip (h : List.Forall₂ R xs ys) {y : γ} (hy : y ∈ ys) : ∃ x, (x, y) ∈ xs.zip ys := by
  obtain ⟨i, hi⟩ := List.mem_iff_getElem?.mp hy
  obtain ⟨x, hx, _⟩ := getElem?_left_of_forall₂ h hi
  exact ⟨x, List.mem_of_getElem? (List.getElem?_zip_eq_some.mpr ⟨hx, hi⟩)⟩

theorem forall₂_imp_of_mem {S : β → γ → Prop} (h : List.Forall₂ R xs ys)
    (himp : ∀ x ∈ xs, ∀ y, R x y → S x y) : List.Forall₂ S xs ys := by
  induction h with
  | nil => exact .nil
  | cons hxy _ ih => exact .cons (himp _ (by simp) _ hxy) (ih fun z hz => himp z (by simp [hz]))

theorem forall₂_comp {S : γ → δ → Prop} {T : β → δ → Prop} {zs : List δ}
    (hcomp : ∀ x y z, R x y → S y z → T x z) (h : List.Forall₂ R xs ys) (h' : List.Forall₂ S ys zs) :
    List.Forall₂ T xs zs := by
  induction h generalizing zs with
  | nil =>
    cases h'
    exact .nil
  | cons hxy _ ih =>
    obtain ⟨_, _, hyz, hrest, rfl⟩ := List.forall₂_cons_left_iff.mp h'
    exact .cons (hcomp _ _ _ hxy hyz) (ih hrest)

theorem mem_right_of_forall₂ (h : List.Forall₂ R xs ys) {x : β} (hx : x ∈ xs) : ∃ y ∈ ys, R x y := by
  obtain ⟨i, hi⟩ := List.mem_iff_getElem?.mp hx
  obtain ⟨y, hy, hxy⟩ := getElem?_right_of_forall₂ h hi
  exact ⟨y, List.mem_of_getElem? hy, hxy⟩

theorem exists_pair_of_forall₂ {x x' : β} (h : List.Forall₂ R [x, x'] ys) : ∃ y y', R x y ∧ R x' y' ∧ ys = [y, y'] := by
  obtain ⟨y, _, hy, hrest, rfl⟩ := List.forall₂_cons_left_iff.mp h
  obtain ⟨y', _, hy', hnil, rfl⟩ := List.forall₂_cons_left_iff.mp hrest
  cases hnil
  exact ⟨y, y', hy, hy', rfl⟩

end

end Categorial
