import Categorial.Proofs.Category.Reading
import Categorial.Proofs.Text.Fields
set_option autoImplicit false

/-!
The texts of categories as a grammar, and what each of them denotes. Reading accepts these texts, with blanks around
them or none, and no others, and gives the category that the text denotes; so no text denotes two categories. The
categories that are denoted are the proper ones, each by its own text and perhaps by others.
-/

namespace Categorial

namespace Category

/-- What may stand beside a slash, and what may stand in parentheses or alone. -/
inductive Layer where
  | primary
  | whole

/-- The text is derived by the grammar, and denotes the category. Neither a feature nor a mark nor anything else that
may stand behind a base begins with a letter, so the letters of a base are always all that there are. A feature is none
that spells the mark. -/
inductive Denotes : Layer → List Char → Category → Prop
  | atom {base : String} {feature : Option String} (n : Nat) : ProperBase base → (∀ f ∈ feature, ProperFeature f) →
      Denotes .primary (base.toList ++ featureChars feature ++ marks n) (conj^[n] (atom base feature))
  | group {s : List Char} {c : Category} (n : Nat) : Denotes .whole s c →
      Denotes .primary ('(' :: (s ++ ')' :: marks n)) (conj^[n] c)
  | single {s : List Char} {c : Category} : Denotes .primary s c → Denotes .whole s c
  | slashed {s t : List Char} {x y : Category} (slash : Slash) : Denotes .whole s x → Denotes .primary t y →
      Denotes .whole (s ++ slash.char :: t) (functor x slash y)

/-! What is read was derived. -/

section

variable {s rest : List Char} {base : String} {feature : Option String} {c c' x : Category}

theorem eq_of_readBase (h : readBase s = .ok (base, rest)) : s = base.toList ++ rest := by
  cases s with
  | nil => cases h
  | cons ch s =>
    rw [readBase] at h
    split at h
    · cases h
      rw [String.toList_ofList, List.cons_append, List.takeWhile_append_dropWhile]
    · split at h
      · cases h
        rw [String.toList_ofList, List.singleton_append]
      · cases h

theorem eq_of_readFeature (h : readFeature s = (feature, rest)) : s = featureChars feature ++ rest := by
  unfold readFeature at h
  split at h
  · rename_i r
    split at h
    · rename_i f fs rest' htake hdrop
      cases h
      have hr := List.takeWhile_append_dropWhile (p := isFeatureChar) (l := r)
      rw [htake, hdrop] at hr
      rw [← hr]
      simp [featureChars]
    · cases h
      rfl
  · cases h
    rfl

theorem exists_marks_of_readMarks (h : readMarks c s = (c', rest)) : ∃ n, s = marks n ++ rest ∧ c' = conj^[n] c := by
  fun_induction readMarks c s with
  | case1 c s ih =>
    obtain ⟨n, hs, hc'⟩ := ih h
    exact ⟨n + 1, by rw [marks_succ_append, ← hs], hc'⟩
  | case2 c s =>
    cases h
    exact ⟨0, rfl, rfl⟩

theorem denotes_readAtom (h : readAtom s = .ok (c, rest)) : ∃ t, s = t ++ rest ∧ Denotes .primary t c := by
  unfold readAtom at h
  cases hbase : readBase s with
  | error e => simp [hbase, Except.map] at h
  | ok p =>
    obtain ⟨base, s₁⟩ := p
    cases hfeature : readFeature s₁ with
    | mk feature s₂ =>
      simp only [hbase, hfeature, Except.map, Except.ok.injEq] at h
      obtain ⟨n, hs₂, rfl⟩ := exists_marks_of_readMarks h
      have hs : s = base.toList ++ featureChars feature ++ marks n ++ rest := by
        rw [eq_of_readBase hbase, eq_of_readFeature hfeature, hs₂]
        simp
      have hproper := properBase_of_readBase hbase
      unfold atomOf
      split
      · rename_i hconj
        have hmarks : base.toList ++ featureChars feature ++ marks n =
            base.toList ++ featureChars none ++ marks (n + 1) := by
          subst hconj
          simp [featureChars, marks, List.replicate_succ, conjMark]
        exact ⟨_, hs, hmarks ▸ .atom (n + 1) hproper (by simp)⟩
      · rename_i hconj
        refine ⟨_, hs, .atom n hproper fun f hf => ?_⟩
        obtain rfl : feature = some f := hf
        obtain ⟨hne, hchars⟩ := feature_of_readFeature hfeature
        exact ⟨hne, hchars, fun heq => hconj (by rw [heq])⟩

theorem eq_of_expect {wanted : Char} (h : expect wanted s = .ok rest) : s = wanted :: rest := by
  cases s with
  | nil => cases h
  | cons c s =>
    rw [expect] at h
    split at h
    · rename_i hc
      cases h
      rw [hc]
    · cases h

end

/-- By induction on the fuel. What follows a first primary is read with the text so far at hand, because functors are
grouped to the left. -/
theorem denotes_of_read (fuel : Nat) :
    (∀ s c rest, readPrimary fuel s = .ok (c, rest) → ∃ t, s = t ++ rest ∧ Denotes .primary t c) ∧
      ∀ s x c rest, readArguments fuel x s = .ok (c, rest) → ∀ u, Denotes .whole u x →
        ∃ t, s = t ++ rest ∧ Denotes .whole (u ++ t) c := by
  have hstop {s rest : List Char} {x c : Category} (h : (.ok (x, s) : Except Malformed _) = .ok (c, rest))
      (u : List Char) (hu : Denotes .whole u x) : ∃ t, s = t ++ rest ∧ Denotes .whole (u ++ t) c := by
    cases h
    exact ⟨[], rfl, by rwa [List.append_nil]⟩
  induction fuel with
  | zero =>
    constructor
    · intro s c rest h
      rw [readPrimary] at h
      · exact denotes_readAtom h
      · simp
    · intro s x c rest h
      rw [readArguments] at h
      · exact hstop h
      · simp
  | succ fuel ih =>
    obtain ⟨hprimary, harguments⟩ := ih
    constructor
    · intro s c rest h
      by_cases hopen : ∃ t, s = '(' :: t
      · obtain ⟨t, rfl⟩ := hopen
        rw [readPrimary_open] at h
        obtain ⟨⟨first, s₁⟩, hfirst, hrest⟩ := except_bind_eq_ok.mp h
        obtain ⟨⟨whole, s₂⟩, hwhole, hrest⟩ := except_bind_eq_ok.mp hrest
        obtain ⟨s₃, hclose, hmarks⟩ := except_bind_eq_ok.mp hrest
        obtain ⟨u, hu, hfirst⟩ := hprimary _ _ _ hfirst
        obtain ⟨v, hv, hwhole⟩ := harguments _ _ _ _ hwhole u (.single hfirst)
        obtain ⟨n, hn, rfl⟩ := exists_marks_of_readMarks (Except.ok.inj hmarks)
        refine ⟨_, ?_, .group n hwhole⟩
        rw [hu, hv, eq_of_expect hclose, hn]
        simp
      · rw [readPrimary_of_ne fun t ht => hopen ⟨t, ht⟩] at h
        exact denotes_readAtom h
    · intro s x c rest h u hu
      cases s with
      | nil => exact hstop h u hu
      | cons ch s =>
        cases hslash : slash? ch with
        | none =>
          rw [readArguments_of_slash? hslash] at h
          exact hstop h u hu
        | some slash =>
          obtain rfl := slash_of_slash? hslash
          rw [readArguments_slash] at h
          obtain ⟨⟨arg, s₁⟩, harg, hrest⟩ := except_bind_eq_ok.mp h
          obtain ⟨v, hv, harg⟩ := hprimary _ _ _ harg
          obtain ⟨t, ht, hwhole⟩ := harguments _ _ _ _ hrest _ (.slashed slash hu harg)
          exact ⟨slash.char :: v ++ t, by rw [hv, ht]; simp, by simpa using hwhole⟩

/-! What is derived is read. -/

/-- With fuel for its text, a primary is read at once; a category leaves its last argument to be read, with fuel for
what follows. -/
def Reads : Layer → List Char → Category → Prop
  | .primary, s, c => ∀ fuel rest, s.length ≤ fuel → Stops rest → readPrimary fuel (s ++ rest) = .ok (c, rest)
  | .whole, s, c => ∀ fuel rest, s.length ≤ fuel → Stops rest → ∃ fuel', fuel ≤ fuel' + s.length ∧
      (readPrimary fuel (s ++ rest) >>= fun (first, s) => readArguments fuel first s) = readArguments fuel' c rest

theorem Denotes.reads {layer : Layer} {s : List Char} {c : Category} (h : Denotes layer s c) : Reads layer s c := by
  induction h with
  | @atom base feature n hbase hfeature =>
    intro fuel rest _ hrest
    have hopen : ∀ t, base.toList ++ (featureChars feature ++ (marks n ++ rest)) ≠ '(' :: t :=
      ne_open_of_properBase hbase _
    rw [List.append_assoc, List.append_assoc, readPrimary_of_ne hopen, ← List.append_assoc,
      readAtom_append hbase hfeature hrest]
  | @group s c n _ ih =>
    intro fuel rest hfuel hrest
    simp only [List.length_cons, List.length_append] at hfuel
    obtain ⟨fuel, rfl⟩ : ∃ k, fuel = k + 1 := ⟨fuel - 1, by omega⟩
    obtain ⟨fuel', -, hread⟩ := ih fuel (')' :: (marks n ++ rest)) (by omega) (stops_close _)
    have hlist : '(' :: (s ++ ')' :: marks n) ++ rest = '(' :: (s ++ ')' :: (marks n ++ rest)) := by simp
    obtain ⟨⟨first, s₁⟩, hfirst, hwhole⟩ := except_bind_eq_ok.mp
      (hread.trans (readArguments_of_slash? rfl fuel' c (marks n ++ rest)))
    refine (congrArg _ hlist).trans ((readPrimary_open fuel _).trans ?_)
    rw [hfirst]
    refine except_bind_eq_ok.mpr ⟨_, rfl, except_bind_eq_ok.mpr ⟨_, hwhole, ?_⟩⟩
    simp only [expect, if_true, bind, Except.bind, except_pure, readMarks_marks hrest]
  | single _ ih =>
    intro fuel rest hfuel hrest
    exact ⟨fuel, Nat.le_add_right _ _, by rw [ih fuel rest hfuel hrest]; rfl⟩
  | @slashed s t x y slash _ _ hx hy =>
    intro fuel rest hfuel hrest
    simp only [List.length_cons, List.length_append] at hfuel ⊢
    obtain ⟨fuel', hle, hread⟩ := hx fuel (slash.char :: (t ++ rest)) (by omega) (stops_slash slash _)
    obtain ⟨fuel', rfl⟩ : ∃ k, fuel' = k + 1 := ⟨fuel' - 1, by omega⟩
    refine ⟨fuel', by omega, ?_⟩
    have hlist : s ++ slash.char :: t ++ rest = s ++ slash.char :: (t ++ rest) := by simp
    rw [hlist, hread, readArguments_slash, hy fuel' rest (by omega) hrest]
    rfl

/-! The characters of a text. -/

def signs : List Char := [',', '.', ';', ':', '[', ']', '(', ')', '/', '\\']

section

variable {P : Char → Prop} (halphanum : ∀ ch, isFeatureChar ch = true → P ch) (hsigns : ∀ ch ∈ signs, P ch)
include halphanum hsigns

theorem forall_mem_base {base : String} (hbase : ProperBase base) : ∀ ch ∈ base.toList, P ch := by
  obtain ⟨-, hletters⟩ | ⟨sign, hsign, hsingle⟩ := hbase
  · intro ch hch
    refine halphanum ch ?_
    rw [isFeatureChar, Char.isAlphanum, Bool.or_eq_true]
    exact .inl (hletters ch hch)
  · rw [hsingle, List.forall_mem_singleton]
    simp only [isBaseSign, Bool.or_eq_true, beq_iff_eq] at hsign
    rcases hsign with ((rfl | rfl) | rfl) | rfl <;> exact hsigns _ (by decide)

theorem forall_mem_featureChars {feature : Option String} (hfeature : ∀ f ∈ feature, ProperFeature f) :
    ∀ ch ∈ featureChars feature, P ch := by
  cases feature with
  | none => exact fun _ hch => nomatch hch
  | some f =>
    rw [featureChars, List.forall_mem_append, List.forall_mem_cons, List.forall_mem_singleton]
    exact ⟨⟨hsigns '[' (by decide), fun ch hch => halphanum ch ((hfeature f rfl).2.1 ch hch)⟩, hsigns ']' (by decide)⟩

theorem forall_mem_marks (n : Nat) : ∀ ch ∈ marks n, P ch := by
  have hmark : conjMark.all (fun ch => isFeatureChar ch || signs.contains ch) = true := by decide
  intro ch hch
  obtain ⟨mark, hmem, hch⟩ := List.mem_flatten.mp hch
  obtain rfl := List.eq_of_mem_replicate hmem
  rcases (Bool.or_eq_true _ _).mp (List.all_eq_true.mp hmark ch hch) with hchar | hchar
  · exact halphanum ch hchar
  · exact hsigns ch (List.contains_iff_mem.mp hchar)

theorem Denotes.forall_mem {layer : Layer} {s : List Char} {c : Category} (h : Denotes layer s c) : ∀ ch ∈ s, P ch := by
  induction h with
  | atom n hbase hfeature =>
    rw [List.forall_mem_append, List.forall_mem_append]
    exact ⟨⟨forall_mem_base halphanum hsigns hbase, forall_mem_featureChars halphanum hsigns hfeature⟩,
      forall_mem_marks halphanum hsigns n⟩
  | group n _ ih =>
    rw [List.forall_mem_cons, List.forall_mem_append, List.forall_mem_cons]
    exact ⟨hsigns '(' (by decide), ih, hsigns ')' (by decide), forall_mem_marks halphanum hsigns n⟩
  | single _ ih => exact ih
  | slashed slash _ _ hx hy =>
    rw [List.forall_mem_append, List.forall_mem_cons]
    exact ⟨hx, hsigns slash.char (by cases slash <;> decide), hy⟩

end

theorem Denotes.visible {layer : Layer} {s : List Char} {c : Category} (h : Denotes layer s c) :
    ∀ ch ∈ s, Text.Visible ch := by
  have hsigns : (signs.all fun ch => decide (Text.Visible ch)) = true := by decide
  exact h.forall_mem (fun _ => visible_of_isFeatureChar) fun ch hch =>
    of_decide_eq_true (List.all_eq_true.mp hsigns ch hch)

theorem Denotes.ne_nil {layer : Layer} {s : List Char} {c : Category} (h : Denotes layer s c) : s ≠ [] := by
  induction h with
  | atom n hbase _ =>
    obtain ⟨hne, -⟩ | ⟨sign, -, hsingle⟩ := hbase
    · simp [hne]
    · simp [hsingle]
  | group _ _ _ => exact List.cons_ne_nil _ _
  | single _ ih => exact ih
  | slashed _ _ _ _ _ => simp

theorem readFirst_ok_iff {s : List Char} {c : Category} : readFirst s = .ok (c, []) ↔ Denotes .whole s c := by
  constructor
  · intro h
    obtain ⟨⟨first, s₁⟩, hfirst, hwhole⟩ := except_bind_eq_ok.mp h
    obtain ⟨hprimary, harguments⟩ := denotes_of_read (s.length + 1)
    obtain ⟨u, hu, hfirst⟩ := hprimary _ _ _ hfirst
    obtain ⟨t, ht, hwhole⟩ := harguments _ _ _ _ hwhole u (.single hfirst)
    rwa [hu, ht, List.append_nil]
  · intro h
    obtain ⟨fuel', -, hread⟩ := h.reads (s.length + 1) [] (Nat.le_succ _) stops_nil
    rw [List.append_nil] at hread
    exact hread.trans (readArguments_nil fuel' c)

theorem read_ok_iff {s : List Char} {c : Category} : read s = .ok c ↔ Denotes .whole (Text.trim s) c := by
  rw [← readFirst_ok_iff, read, except_bind_eq_ok]
  constructor
  · rintro ⟨⟨c', rest⟩, hread, h⟩
    cases rest with
    | nil =>
      cases h
      exact hread
    | cons _ _ => cases h
  · exact fun h => ⟨(c, []), h, rfl⟩

/-! The categories that are read are the proper ones, and each of them is read back from its text. -/

theorem proper_iterate_conj {c : Category} (hc : c.Proper) (n : Nat) : (conj^[n] c).Proper := by
  induction n generalizing c with
  | zero => exact hc
  | succ n ih => exact ih (c := conj c) hc

theorem Denotes.proper {layer : Layer} {s : List Char} {c : Category} (h : Denotes layer s c) : c.Proper := by
  induction h with
  | @atom base feature n hbase hfeature => exact proper_iterate_conj (c := .atom base feature) ⟨hbase, hfeature⟩ n
  | group n _ ih => exact proper_iterate_conj ih n
  | single _ ih => exact ih
  | slashed _ _ _ hx hy => exact ⟨hx, hy⟩

theorem proper_of_read {s : List Char} {c : Category} (h : read s = .ok c) : c.Proper := (read_ok_iff.mp h).proper

theorem marks_succ (n : Nat) : marks (n + 1) = marks n ++ conjMark := by
  simp [marks, List.replicate_succ']

theorem Denotes.mark {s : List Char} {x : Category} (h : Denotes .primary s x) :
    Denotes .primary (s ++ conjMark) (conj x) := by
  cases h with
  | atom n hbase hfeature =>
    rw [List.append_assoc, ← marks_succ, ← Function.iterate_succ_apply' conj]
    exact .atom (n + 1) hbase hfeature
  | @group s c n hs =>
    have hlist : '(' :: (s ++ ')' :: marks n) ++ conjMark = '(' :: (s ++ ')' :: marks (n + 1)) := by
      simp [marks_succ]
    rw [hlist, ← Function.iterate_succ_apply' conj]
    exact .group (n + 1) hs

theorem denotes_inner {c : Category} (hc : c.Proper) : Denotes .primary c.inner c := by
  induction c with
  | atom base feature =>
    have hatom := Denotes.atom 0 hc.1 hc.2
    rwa [marks, List.replicate_zero, List.flatten_nil, List.append_nil, ← inner_atom] at hatom
  | conj x ih =>
    rw [inner_conj]
    exact (ih hc).mark
  | functor x slash y hx hy =>
    rw [inner_functor]
    exact .group 0 (.slashed slash (.single (hx hc.1)) (hy hc.2))

theorem denotes_chars {c : Category} (hc : c.Proper) : Denotes .whole c.chars c := by
  cases c with
  | functor x slash y => exact .slashed slash (.single (denotes_inner hc.1)) (denotes_inner hc.2)
  | atom base feature => exact .single (denotes_inner hc)
  | conj x => exact .single (denotes_inner hc)

theorem read_chars {c : Category} (hc : c.Proper) : read c.chars = .ok c := by
  have hdenotes := denotes_chars hc
  rwa [read_ok_iff, Text.trim_of_not_isBlank fun ch hch => (hdenotes.visible ch hch).not_isBlank]

/-- A text is read as a category exactly if, the blanks around it aside, it denotes the category. -/
theorem ofString?_ok_iff (s : String) (c : Category) :
    ofString? s = .ok c ↔ ∃ before t after, s.toList = before ++ t ++ after ∧ Text.Gap before ∧ Text.Gap after ∧
      Denotes .whole t c := by
  rw [ofString?, read_ok_iff]
  constructor
  · intro h
    obtain ⟨before, after, hbefore, hafter, hs⟩ := Text.exists_gap_trim s.toList
    exact ⟨before, Text.trim s.toList, after, hs, hbefore, hafter, h⟩
  · rintro ⟨before, t, after, hs, hbefore, hafter, h⟩
    rwa [hs, Text.trim_between hbefore hafter h.ne_nil fun ch hch => (h.visible ch hch).not_isBlank]

/-- A mark before a feature, a feature in parentheses and a blank inside are no parts of a category. -/
example : (["NP[conj][nb]", "(NP)[nb]", "S / NP"].map fun s => (ofString? s).toOption) = [none, none, none] := by decide

end Category

end Categorial
