import Mathlib.Data.List.Forall2
set_option autoImplicit false

namespace Categorial

section

variable {ε α β : Type}

theorem except_bind_eq_ok {x : Except ε α} {f : α → Except ε β} {b : β} :
    (x >>= f) = .ok b ↔ ∃ a, x = .ok a ∧ f a = .ok b := by
  cases x with
  | error e => simp [bind, Except.bind]
  | ok a => simp [bind, Except.bind]

theorem except_bind_eq_error {x : Except ε α} {f : α → Except ε β} {e : ε} :
    (x >>= f) = .error e ↔ x = .error e ∨ ∃ a, x = .ok a ∧ f a = .error e := by
  cases x with
  | error e => simp [bind, Except.bind]
  | ok a => simp [bind, Except.bind]

/-- What follows matters where the first step succeeds only. -/
theorem except_bind_congr {x : Except ε α} {f g : α → Except ε β} (h : ∀ a, x = .ok a → f a = g a) :
    (x >>= f) = (x >>= g) := by
  cases x with
  | error e => rfl
  | ok a => exact h a rfl

@[simp] theorem except_throw (e : ε) : (throw e : Except ε α) = .error e := rfl

@[simp] theorem except_pure (a : α) : (pure a : Except ε α) = .ok a := rfl

@[simp] theorem except_mapError_eq_ok {ε' : Type} {x : Except ε α} {f : ε → ε'} {a : α} :
    x.mapError f = .ok a ↔ x = .ok a := by
  cases x <;> simp [Except.mapError]

theorem elim_error_eq_ok {x : Option α} {e : ε} {a : α} :
    x.elim (.error e) Except.ok = .ok a ↔ x = some a := by
  cases x <;> simp

theorem mapM_of_forall₂ {f : α → Except ε β} {xs : List α} {ys : List β}
    (h : List.Forall₂ (fun x y => f x = .ok y) xs ys) : xs.mapM f = .ok ys := by
  induction h with
  | nil => rfl
  | cons hx _ ih =>
    rw [List.mapM_cons, hx, ih]
    rfl

theorem mapM_ok_iff {f : α → Except ε β} {xs : List α} {ys : List β} :
    xs.mapM f = .ok ys ↔ List.Forall₂ (fun x y => f x = .ok y) xs ys := by
  refine ⟨fun h => ?_, mapM_of_forall₂⟩
  induction xs generalizing ys with
  | nil =>
    cases h
    exact .nil
  | cons x xs ih =>
    rw [List.mapM_cons] at h
    obtain ⟨y, hy, h⟩ := except_bind_eq_ok.mp h
    obtain ⟨ys', hys, h⟩ := except_bind_eq_ok.mp h
    cases h
    exact .cons hy (ih hys)

theorem mapM_eq_ok {f : α → Except ε β} {k : α → β} {xs : List α} (h : ∀ x ∈ xs, f x = .ok (k x)) :
    xs.mapM f = .ok (xs.map k) :=
  mapM_of_forall₂ (List.forall₂_map_right_iff.mpr (List.forall₂_same.mpr h))

theorem exists_of_mem_mapM {f : α → Except ε β} {xs : List α} {ys : List β} (h : xs.mapM f = .ok ys) {y : β}
    (hy : y ∈ ys) : ∃ x ∈ xs, f x = .ok y := by
  induction xs generalizing ys with
  | nil =>
    cases h
    cases hy
  | cons x xs ih =>
    rw [List.mapM_cons] at h
    obtain ⟨z, hz, h⟩ := except_bind_eq_ok.mp h
    obtain ⟨zs, hzs, h⟩ := except_bind_eq_ok.mp h
    cases h
    rcases List.mem_cons.mp hy with rfl | hmem
    · exact ⟨x, by simp, hz⟩
    · obtain ⟨x', hx', hy'⟩ := ih hzs hmem
      exact ⟨x', by simp [hx'], hy'⟩

theorem forM_eq_ok {f : α → Except ε Unit} {xs : List α} (h : ∀ x ∈ xs, f x = .ok ()) :
    xs.forM f = .ok () := by
  induction xs with
  | nil => rfl
  | cons x xs ih =>
    have hcons : (x :: xs).forM f = (f x >>= fun _ => xs.forM f) := rfl
    rw [hcons, h x (by simp)]
    exact ih fun y hy => h y (by simp [hy])

theorem foldlM_ok_induction {f : β → α → Except ε β} {P : β → Prop}
    (step : ∀ s x s', P s → f s x = .ok s' → P s') :
    ∀ {xs : List α} {s s' : β}, xs.foldlM f s = .ok s' → P s → P s' := by
  intro xs
  induction xs with
  | nil =>
    intro s s' h hs
    cases h
    exact hs
  | cons x xs ih =>
    intro s s' h hs
    rw [List.foldlM_cons] at h
    obtain ⟨t, ht, hrest⟩ := except_bind_eq_ok.mp h
    exact ih hrest (step s x t hs ht)

theorem size_le_foldl {grow : β → α → β} {size : β → Nat} (hgrow : ∀ s x, size s ≤ size (grow s x)) (xs : List α) :
    ∀ s : β, size s ≤ size (xs.foldl grow s) := by
  induction xs with
  | nil => exact fun s => Nat.le_refl _
  | cons x xs ih => exact fun s => Nat.le_trans (hgrow s x) (ih (grow s x))

/-- A run that is given up at the first state that is too large. If no step makes a state smaller, only the size of
the last one counts. -/
theorem foldlM_bounded {f : β → α → Except ε β} {grow : β → α → β} {size : β → Nat} {bound : Nat} {e : ε}
    (hgrow : ∀ s x, size s ≤ size (grow s x))
    (hstep : ∀ s x, size s ≤ bound → f s x = if size (grow s x) ≤ bound then .ok (grow s x) else .error e) :
    ∀ {xs : List α} {s : β}, size s ≤ bound →
      xs.foldlM f s = if size (xs.foldl grow s) ≤ bound then .ok (xs.foldl grow s) else .error e := by
  intro xs
  induction xs with
  | nil =>
    intro s hs
    rw [List.foldl_nil, if_pos hs]
    rfl
  | cons x xs ih =>
    intro s hs
    rw [List.foldlM_cons, hstep s x hs, List.foldl_cons]
    by_cases hx : size (grow s x) ≤ bound
    · rw [if_pos hx]
      exact ih hx
    · have hlast : ¬ size (xs.foldl grow (grow s x)) ≤ bound :=
        fun hle => hx (Nat.le_trans (size_le_foldl hgrow xs _) hle)
      rw [if_neg hx, if_neg hlast]
      rfl

/-- A step that may fail, with a state that it leaves behind either way. -/
theorem exceptT_run_bind {σ γ : Type} (x : ExceptT ε (StateM σ) β) (f : β → ExceptT ε (StateM σ) γ) (s : σ) :
    (x >>= f).run s = match x.run s with
      | (.ok a, s') => (f a).run s'
      | (.error e, s') => (.error e, s') := by
  have hrun : (x >>= f).run s = match x.run s with
      | (r, s') => (ExceptT.bindCont f r) s' := rfl
  rw [hrun]
  cases x.run s with
  | mk r s' => cases r <;> rfl

theorem exceptT_run_bind_eq_ok {σ γ : Type} {x : ExceptT ε (StateM σ) β} {f : β → ExceptT ε (StateM σ) γ}
    {s s'' : σ} {c : γ} :
    (x >>= f).run s = (.ok c, s'') ↔ ∃ a s', x.run s = (.ok a, s') ∧ (f a).run s' = (.ok c, s'') := by
  rw [exceptT_run_bind]
  cases x.run s with
  | mk r s' =>
    cases r with
    | error e =>
      constructor
      · intro h
        cases h
      · rintro ⟨_, _, h, _⟩
        cases h
    | ok a =>
      constructor
      · exact fun h => ⟨a, s', rfl, h⟩
      · rintro ⟨_, _, h, hrest⟩
        cases h
        exact hrest

theorem exceptT_run_bind_eq_error {σ γ : Type} {x : ExceptT ε (StateM σ) β} {f : β → ExceptT ε (StateM σ) γ}
    {s s'' : σ} {e : ε} : (x >>= f).run s = (.error e, s'') ↔
      x.run s = (.error e, s'') ∨ ∃ a s', x.run s = (.ok a, s') ∧ (f a).run s' = (.error e, s'') := by
  rw [exceptT_run_bind]
  cases x.run s with
  | mk r s' =>
    cases r with
    | error e' =>
      constructor
      · intro h
        cases h
        exact .inl rfl
      · rintro (h | ⟨_, _, h, _⟩)
        · cases h
          rfl
        · cases h
    | ok a =>
      constructor
      · exact fun h => .inr ⟨a, s', rfl, h⟩
      · rintro (h | ⟨_, _, h, hrest⟩)
        · cases h
        · cases h
          exact hrest

/-- Either the first step fails, or the second is taken from where it led. -/
theorem exceptT_run_bind_cases {σ γ : Type} {x : ExceptT ε (StateM σ) β} {f : β → ExceptT ε (StateM σ) γ}
    {s s'' : σ} {r : Except ε γ} (h : (x >>= f).run s = (r, s'')) :
    (∃ e, x.run s = (.error e, s'') ∧ r = .error e) ∨
      ∃ a s', x.run s = (.ok a, s') ∧ (f a).run s' = (r, s'') := by
  cases r with
  | ok c => exact .inr (exceptT_run_bind_eq_ok.mp h)
  | error e => exact (exceptT_run_bind_eq_error.mp h).imp_left fun hx => ⟨e, hx, rfl⟩

theorem exceptT_run_tryCatch {σ : Type} (x : ExceptT ε (StateM σ) β) (handle : ε → ExceptT ε (StateM σ) β)
    (s : σ) : (tryCatch x handle).run s = match x.run s with
      | (.ok a, s') => (.ok a, s')
      | (.error e, s') => (handle e).run s' := by
  have hcatch : (tryCatch x handle).run s = match x s with
      | (r, s') => (match r with
        | .ok a => (pure (.ok a) : StateM σ (Except ε β))
        | .error e => handle e) s' := by
    simp only [tryCatch, tryCatchThe, MonadExceptOf.tryCatch, ExceptT.tryCatch, ExceptT.run_mk, bind, StateT.bind]
    rfl
  have hrun : x.run s = x s := rfl
  rw [hcatch, hrun]
  cases x s with
  | mk r s' => cases r <;> rfl

end

end Categorial
