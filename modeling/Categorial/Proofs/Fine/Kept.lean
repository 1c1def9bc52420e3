import Categorial.Proofs.ExactScalar
import Categorial.Proofs.Fine.Group
import Mathlib.Data.List.TakeWhile
set_option autoImplicit false

namespace Categorial

/-- Among these scores the order is total, and less is the opposite of at least. -/
structure Scalar.TotalOn {α : Type} [Scalar α] (S : α → Prop) : Prop where
  trans : ∀ x y z : α, Scalar.le x y = true → Scalar.le y z = true → Scalar.le x z = true
  total : ∀ x y : α, S x → S y → Scalar.le x y = true ∨ Scalar.le y x = true
  lt_iff : ∀ x y : α, S x → S y → (Scalar.lt x y = true ↔ Scalar.le y x = false)

theorem ExactScalar.totalOn : Scalar.TotalOn fun _ : EReal => True where
  trans x y z hxy hyz := by
    rw [ExactScalar.le_iff] at hxy hyz ⊢
    exact hxy.trans hyz
  total x y _ _ := by simpa using le_total x y
  lt_iff x y _ _ := by
    rw [ExactScalar.lt_iff, ← Bool.not_eq_true, ExactScalar.le_iff, not_le]

section

variable {α β : Type} [Scalar α] {S : α → Prop} {score : β → α}

/-- No entry scores more than one before it. -/
def Descending (score : β → α) (xs : List β) : Prop :=
  xs.Pairwise fun x y => Scalar.le (score y) (score x) = true

theorem insertByScore_perm (score : β → α) (x : β) (xs : List β) :
    (insertByScore score x xs).Perm (x :: xs) := by
  unfold insertByScore
  conv => rhs; rw [← List.take_append_drop (Categorial.rank score x xs) xs]
  exact List.perm_middle

/-- A new entry goes behind those that score at least as much, and before all others. -/
theorem insertByScore_split (hS : Scalar.TotalOn S) (x : β) {xs : List β} (h : Descending score xs) :
    ∃ ahead behind, xs = ahead ++ behind ∧ insertByScore score x xs = ahead ++ x :: behind ∧
      Categorial.rank score x xs = ahead.length ∧
      (∀ y ∈ ahead, Scalar.le (score x) (score y) = true) ∧
      ∀ y ∈ behind, Scalar.le (score x) (score y) = false := by
  let p : β → Bool := fun y => Scalar.le (score x) (score y)
  have ha : ∀ y ∈ xs.takeWhile p, Scalar.le (score x) (score y) = true := fun y hy => by
    have hp : p y = true := List.mem_takeWhile_imp hy
    exact hp
  have hb : ∀ y ∈ xs.dropWhile p, Scalar.le (score x) (score y) = false := by
    have hdesc : Descending score (xs.dropWhile p) := h.sublist (List.dropWhile_sublist p)
    cases hdrop : xs.dropWhile p with
    | nil => simp
    | cons first rest =>
      rw [hdrop] at hdesc
      have hne : xs.dropWhile p ≠ [] := by simp [hdrop]
      have hfirst : Scalar.le (score x) (score first) = false := by
        have := List.head_dropWhile_not p hne
        simpa [hdrop, p] using this
      intro y hy
      rcases List.mem_cons.mp hy with rfl | hy
      · exact hfirst
      · refine Bool.eq_false_iff.mpr fun hle => ?_
        have := hS.trans _ _ _ hle ((List.pairwise_cons.mp hdesc).1 y hy)
        simp [hfirst] at this
  refine ⟨xs.takeWhile p, xs.dropWhile p, List.takeWhile_append_dropWhile.symm, ?_, ?_, ha, hb⟩
  · have := insertByScore_append score x _ _ ha hb
    rwa [List.takeWhile_append_dropWhile] at this
  · have := turningPoint_append p _ _ ha hb
    rwa [List.takeWhile_append_dropWhile] at this

theorem descending_insertByScore (hS : Scalar.TotalOn S) {x : β} {xs : List β}
    (h : Descending score xs) (hx : S (score x)) (hxs : ∀ y ∈ xs, S (score y)) :
    Descending score (insertByScore score x xs) := by
  obtain ⟨ahead, behind, rfl, heq, _, ha, hb⟩ := insertByScore_split hS x h
  rw [heq]
  obtain ⟨hahead, hbehind, hacross⟩ := List.pairwise_append.mp h
  refine List.pairwise_append.mpr ⟨hahead, List.pairwise_cons.mpr ⟨fun y hy => ?_, hbehind⟩, ?_⟩
  · rcases hS.total _ _ (hxs y (by simp [hy])) hx with hle | hle
    · exact hle
    · simp [hb y hy] at hle
  · intro y hy z hz
    rcases List.mem_cons.mp hz with rfl | hz
    · exact ha y hy
    · exact hacross y hy z hz

theorem Descending.le_head (hS : Scalar.TotalOn S) {xs : List β} {first : β} (h : Descending score xs)
    (hxs : ∀ y ∈ xs, S (score y)) (hfirst : xs.head? = some first) :
    ∀ y ∈ xs, Scalar.le (score y) (score first) = true := by
  cases xs with
  | nil => cases hfirst
  | cons x xs =>
    cases hfirst
    intro y hy
    rcases List.mem_cons.mp hy with rfl | hy
    · exact (hS.total _ _ (hxs y (by simp)) (hxs y (by simp))).elim id id
    · exact (List.pairwise_cons.mp h).1 y hy

theorem foldl_insertByScore_perm (score : β → α) (found : List β) :
    (found.foldl (fun xs x => insertByScore score x xs) []).Perm found := by
  induction found using List.reverseRecOn with
  | nil => exact List.Perm.refl _
  | append_singleton found x ih =>
    rw [List.foldl_append, List.foldl_cons, List.foldl_nil]
    refine (insertByScore_perm score x _).trans ?_
    exact (ih.cons x).trans (List.perm_append_singleton x found).symm

theorem descending_foldl_insertByScore (hS : Scalar.TotalOn S) {found : List β}
    (hfound : ∀ y ∈ found, S (score y)) :
    Descending score (found.foldl (fun xs x => insertByScore score x xs) []) := by
  induction found using List.reverseRecOn with
  | nil => exact List.Pairwise.nil
  | append_singleton found x ih =>
    rw [List.foldl_append, List.foldl_cons, List.foldl_nil]
    refine descending_insertByScore hS (ih fun y hy => hfound y (by simp [hy])) (hfound x (by simp)) ?_
    intro y hy
    exact hfound y (List.mem_append_left _ ((foldl_insertByScore_perm score found).mem_iff.mp hy))

end

namespace FineChart

variable {α : Type} [Scalar α] {S : α → Prop} {retain : Retain}

theorem mem_of_mem_retainEdge {edges : List (FineEdge α)} {e x : FineEdge α}
    (h : x ∈ retainEdge retain edges e) : x = e ∨ x ∈ edges := by
  have hinsert : ∀ {y}, y ∈ insertByScore FineEdge.score e edges → y = e ∨ y ∈ edges := by
    intro y hy
    exact List.mem_cons.mp ((insertByScore_perm FineEdge.score e edges).mem_iff.mp hy)
  cases retain with
  | best =>
    cases edges with
    | nil => exact .inl (List.mem_singleton.mp h)
    | cons first rest =>
      simp only [retainEdge] at h
      split at h
      · exact .inl (List.mem_singleton.mp h)
      · exact .inr h
  | kBest k =>
    simp only [retainEdge] at h
    split at h
    · exact hinsert (List.mem_of_mem_take h)
    · exact .inr h
  | all => exact hinsert h

theorem descending_retainEdge (hS : Scalar.TotalOn S) {edges : List (FineEdge α)} {e : FineEdge α}
    (h : Descending FineEdge.score edges) (he : S e.score) (hedges : ∀ x ∈ edges, S x.score) :
    Descending FineEdge.score (retainEdge retain edges e) := by
  have hinsert := descending_insertByScore hS h he hedges
  cases retain with
  | best =>
    cases edges with
    | nil => exact List.pairwise_singleton _ _
    | cons first rest =>
      simp only [retainEdge]
      split
      · exact List.pairwise_singleton _ _
      · exact h
  | kBest k =>
    simp only [retainEdge]
    split
    · exact hinsert.sublist (List.take_sublist _ _)
    · exact h
  | all => exact hinsert

theorem head?_retainEdge (hS : Scalar.TotalOn S) (hretain : retain ≠ .kBest 0) {first : FineEdge α}
    {rest : List (FineEdge α)} {e : FineEdge α} (h : Descending FineEdge.score (first :: rest))
    (he : S e.score) (hedges : ∀ x ∈ first :: rest, S x.score) :
    ∃ x, (retainEdge retain (first :: rest) e).head? = some x ∧ Scalar.le e.score x.score = true ∧
      Scalar.le first.score x.score = true := by
  have hfirst : S first.score := hedges first (by simp)
  have hrefl : ∀ x, S x → Scalar.le x x = true := fun x hx => (hS.total x x hx hx).elim id id
  obtain ⟨ahead, behind, hsplit, hinsert, hrank, ha, hb⟩ := insertByScore_split hS e h
  have hall : ∃ x, (insertByScore FineEdge.score e (first :: rest)).head? = some x ∧
      Scalar.le e.score x.score = true ∧ Scalar.le first.score x.score = true := by
    rw [hinsert]
    cases ahead with
    | nil =>
      rw [List.nil_append] at hsplit
      have hlow : Scalar.le e.score first.score = false := hb first (hsplit ▸ List.mem_cons_self)
      have hle : Scalar.le first.score e.score = true := by
        rcases hS.total _ _ hfirst he with hle | hle
        · exact hle
        · simp [hlow] at hle
      exact ⟨e, rfl, hrefl _ he, hle⟩
    | cons a ahead =>
      obtain ⟨rfl, _⟩ := List.cons.inj hsplit
      exact ⟨first, rfl, ha first (by simp), hrefl _ hfirst⟩
  cases retain with
  | best =>
    simp only [retainEdge]
    cases hlt : Scalar.lt first.score e.score with
    | true =>
      have hlow := (hS.lt_iff _ _ hfirst he).mp hlt
      refine ⟨e, rfl, hrefl _ he, ?_⟩
      rcases hS.total _ _ hfirst he with hle | hle
      · exact hle
      · simp [hlow] at hle
    | false =>
      refine ⟨first, rfl, ?_, hrefl _ hfirst⟩
      refine Bool.of_not_eq_false fun hlow => ?_
      simp [(hS.lt_iff _ _ hfirst he).mpr hlow] at hlt
  | kBest k =>
    cases k with
    | zero => exact absurd rfl hretain
    | succ k =>
      simp only [retainEdge]
      split
      · obtain ⟨x, hx, hle⟩ := hall
        exact ⟨x, by simpa [List.head?_take] using hx, hle⟩
      · rename_i hfull
        cases ahead with
        | nil => simp [hrank] at hfull
        | cons a ahead =>
          obtain ⟨rfl, _⟩ := List.cons.inj hsplit
          exact ⟨first, rfl, ha first (by simp), hrefl _ hfirst⟩
  | all => exact hall

theorem mem_of_mem_kept {es : List (FineEdge α)} {x : FineEdge α} (h : x ∈ kept retain es) :
    x ∈ es := by
  induction es using List.reverseRecOn with
  | nil => exact h
  | append_singleton es e ih =>
    by_cases hnil : es = []
    · simpa [hnil, kept] using h
    · rw [kept_append_singleton retain hnil] at h
      rcases mem_of_mem_retainEdge h with rfl | h
      · simp
      · exact List.mem_append_left _ (ih h)

theorem descending_kept (hS : Scalar.TotalOn S) {es : List (FineEdge α)} (hes : ∀ e ∈ es, S e.score) :
    Descending FineEdge.score (kept retain es) := by
  induction es using List.reverseRecOn with
  | nil => exact List.Pairwise.nil
  | append_singleton es e ih =>
    by_cases hnil : es = []
    · simp [hnil, kept, Descending]
    · rw [kept_append_singleton retain hnil]
      have hes' : ∀ x ∈ es, S x.score := fun x hx => hes x (by simp [hx])
      exact descending_retainEdge hS (ih hes') (hes e (by simp)) fun x hx => hes' x (mem_of_mem_kept hx)

theorem le_head_kept (hS : Scalar.TotalOn S) (hretain : retain ≠ .kBest 0) {es : List (FineEdge α)}
    (hes : ∀ e ∈ es, S e.score) :
    ∀ e ∈ es, ∃ x, (kept retain es).head? = some x ∧ Scalar.le e.score x.score = true := by
  induction es using List.reverseRecOn with
  | nil => simp
  | append_singleton es e ih =>
    have hes' : ∀ x ∈ es, S x.score := fun x hx => hes x (by simp [hx])
    by_cases hnil : es = []
    · subst hnil
      intro x hx
      obtain rfl := List.mem_singleton.mp hx
      exact ⟨x, rfl, (hS.total _ _ (hes x hx) (hes x hx)).elim id id⟩
    · rw [kept_append_singleton retain hnil]
      cases hkept : kept retain es with
      | nil => exact absurd hkept (kept_ne_nil retain hnil)
      | cons first rest =>
        have hdesc : Descending FineEdge.score (kept retain es) := descending_kept hS hes'
        rw [hkept] at hdesc
        have hrest : ∀ x ∈ first :: rest, S x.score := fun x hx =>
          hes' x (mem_of_mem_kept (hkept ▸ hx))
        obtain ⟨x, hx, hnew, hold⟩ := head?_retainEdge hS hretain hdesc (hes e (by simp)) hrest
        intro y hy
        refine ⟨x, hx, ?_⟩
        rcases List.mem_append.mp hy with hy | hy
        · obtain ⟨z, hz, hle⟩ := ih hes' y hy
          rw [hkept] at hz
          cases hz
          exact hS.trans _ _ _ hle hold
        · obtain rfl := List.mem_singleton.mp hy
          exact hnew

theorem kept_all_perm (es : List (FineEdge α)) : (kept .all es).Perm es := by
  induction es using List.reverseRecOn with
  | nil => exact List.Perm.refl _
  | append_singleton es e ih =>
    by_cases hnil : es = []
    · simp [hnil, kept]
    · rw [kept_append_singleton .all hnil]
      refine (insertByScore_perm FineEdge.score e _).trans ?_
      exact (ih.cons e).trans (List.perm_append_singleton e es).symm

end FineChart

end Categorial
