import Categorial.Model.Perceptron
import Categorial.Proofs.Except
import Mathlib.Data.List.Basic
set_option autoImplicit false

namespace Categorial

namespace Symbols

def Extends (s s' : Symbols) : Prop := ∀ x id, s.get? x = some id → s'.get? x = some id

theorem Extends.refl (s : Symbols) : s.Extends s := fun _ _ h => h

theorem Extends.trans {s s' s'' : Symbols} (h : s.Extends s') (h' : s'.Extends s'') : s.Extends s'' :=
  fun x id hx => h' x id (h x id hx)

theorem intern_spec (s : Symbols) (x : String) :
    s.Extends (s.intern x).2 ∧ (s.intern x).2.get? x = some (s.intern x).1 := by
  unfold intern
  cases hx : s.ids[x]? with
  | some id => exact ⟨.refl s, hx⟩
  | none =>
    refine ⟨fun y id hy => ?_, Std.HashMap.getElem?_insert_self⟩
    have hne : x ≠ y := by
      rintro rfl
      exact Option.some_ne_none id (hy.symm.trans hx)
    simp only [get?, Std.HashMap.getElem?_insert, beq_iff_eq, hne, if_false]
    exact hy

end Symbols

/-- Whatever the first numbers, the second finds from then on. -/
def Finds {β : Type} (grow known : Finding β) : Prop :=
  ∀ s, s.Extends (grow.run s).2 ∧
    ∀ s' : Symbols, (grow.run s).2.Extends s' → known.run s' = ((grow.run s).1, s')

namespace Finds

variable {β γ : Type}

theorem pure (a : β) : Finds (pure a : Finding β) (Pure.pure a) :=
  fun s => ⟨.refl s, fun _ _ => rfl⟩

theorem bind {grow known : Finding β} {f f' : β → Finding γ} (h : Finds grow known)
    (hf : ∀ a, Finds (f a) (f' a)) : Finds (grow >>= f) (known >>= f') := by
  intro s
  obtain ⟨hext, hknown⟩ := h s
  obtain ⟨hext', hknown'⟩ := hf (grow.run s).1 (grow.run s).2
  refine ⟨hext.trans hext', fun s' hs' => ?_⟩
  have hfirst := hknown s' (hext'.trans hs')
  have hsecond := hknown' s' hs'
  have hrun : (known >>= f').run s' = (f' (known.run s').1).run (known.run s').2 := rfl
  rw [hrun, hfirst]
  exact hsecond

theorem findSymbol (x : Option String) : Finds (findSymbol .grow x) (findSymbol .known x) := by
  cases x with
  | none => exact pure none
  | some x =>
    intro s
    obtain ⟨hext, hget⟩ := s.intern_spec x
    refine ⟨hext, fun s' hs' => ?_⟩
    have hfound := hs' x _ hget
    have hrun : (Categorial.findSymbol .known (some x)).run s' = (s'.get? x, s') := rfl
    rw [hrun, hfound]
    rfl

theorem features (ctx : Context) (rule : Rule) (e : Expansion) :
    Finds (e.features .grow ctx rule) (e.features .known ctx rule) := by
  cases e with
  | lexical =>
    exact bind (findSymbol _) fun _ => bind (findSymbol _) fun _ => pure _
  | unary => exact bind (findSymbol _) fun _ => pure _
  | binary =>
    exact bind (findSymbol _) fun _ => bind (findSymbol _) fun _ => bind (findSymbol _) fun _ =>
      bind (findSymbol _) fun _ => pure _
  | top => exact bind (findSymbol _) fun _ => pure _

end Finds

namespace FeatureTable

/-- Features and strings keep their numbers. -/
structure Extends (t t' : FeatureTable) : Prop where
  get? : ∀ key i, t.get? key = some i → t'.get? key = some i
  symbols : t.symbols.Extends t'.symbols

theorem Extends.refl (t : FeatureTable) : t.Extends t := ⟨fun _ _ h => h, .refl _⟩

theorem Extends.trans {t t' t'' : FeatureTable} (h : t.Extends t') (h' : t'.Extends t'') :
    t.Extends t'' :=
  ⟨fun key i hi => h'.get? key i (h.get? key i hi), h.symbols.trans h'.symbols⟩

theorem extends_insert {t : FeatureTable} {key : Feature} (hnew : t.get? key = none) : t.Extends (t.insert key) where
  get? key' i hi := by
    have hne : key ≠ key' := by
      rintro rfl
      exact Option.some_ne_none i (hi.symm.trans hnew)
    have hinsert : (t.insert key).get? key' = (t.index.insert key t.size)[key']? := rfl
    rw [hinsert, Std.HashMap.getElem?_insert, if_neg (by simpa using hne)]
    exact hi
  symbols := .refl _

/-- Features and strings keep their numbers, and a frozen table gets no new features. -/
structure Grows (t t' : FeatureTable) : Prop extends Extends t t' where
  frozen : t.frozen = true → t'.frozen = true ∧ ∀ key, t'.get? key = t.get? key

theorem Grows.refl (t : FeatureTable) : t.Grows t := ⟨.refl t, fun h => ⟨h, fun _ => rfl⟩⟩

theorem Grows.trans {t t' t'' : FeatureTable} (h : t.Grows t') (h' : t'.Grows t'') : t.Grows t'' := by
  refine ⟨h.toExtends.trans h'.toExtends, fun hfrozen => ?_⟩
  obtain ⟨hfrozen', hsame⟩ := h.frozen hfrozen
  obtain ⟨hfrozen'', hsame'⟩ := h'.frozen hfrozen'
  exact ⟨hfrozen'', fun key => (hsame' key).trans (hsame key)⟩

theorem register_spec (t : FeatureTable) (key : Feature) :
    ∃ i t', t.register key = (i, t') ∧ t.Grows t' ∧ t'.frozen = t.frozen ∧
      ∀ t'', t'.Grows t'' → t''.get? key = i := by
  unfold register
  cases hkey : t.get? key with
  | some i =>
    exact ⟨some i, _, rfl, ⟨⟨fun _ _ h => h, .refl _⟩, fun h => ⟨h, fun _ => rfl⟩⟩, rfl,
      fun t'' h => h.get? key i hkey⟩
  | none =>
    cases hopen : t.frozen with
    | true => exact ⟨none, t, rfl, .refl t, hopen, fun t'' h => ((h.frozen hopen).2 key).trans hkey⟩
    | false =>
      simp only [Bool.false_eq_true, if_false]
      refine ⟨some t.size, _, rfl, ⟨⟨(extends_insert hkey).get?, .refl _⟩, fun h => ?_⟩, hopen,
        fun t'' h => h.get? key _ Std.HashMap.getElem?_insert_self⟩
      cases hopen.symm.trans h

theorem registerAll_spec (keys : List Feature) : ∀ t : FeatureTable,
    t.Grows (t.registerAll keys).2 ∧ (t.registerAll keys).2.frozen = t.frozen ∧
      ∀ t' : FeatureTable, (t.registerAll keys).2.Grows t' →
        keys.filterMap t'.get? = (t.registerAll keys).1 := by
  induction keys with
  | nil => exact fun t => ⟨.refl t, rfl, fun _ _ => rfl⟩
  | cons key keys ih =>
    intro t
    obtain ⟨i, t₁, hregister, hgrows, hfrozen, hget⟩ := register_spec t key
    obtain ⟨hgrows', hfrozen', hrest⟩ := ih t₁
    simp only [registerAll, hregister]
    refine ⟨hgrows.trans hgrows', hfrozen'.trans hfrozen, fun t' ht' => ?_⟩
    have hfound := hget t' (hgrows'.trans ht')
    rw [← hrest t' ht', List.filterMap_cons, hfound]
    cases i <;> rfl

end FeatureTable

namespace Perceptron

variable {α : Type}

/-- The same model at a later time: features may have been registered, and weights may have changed. -/
structure Later (m p : Perceptron α) : Prop where
  grammarId_eq : p.grammarId = m.grammarId
  table : m.table.Extends p.table

theorem Later.refl (m : Perceptron α) : m.Later m := ⟨rfl, .refl _⟩

theorem Later.trans {m p q : Perceptron α} (h : m.Later p) (h' : p.Later q) : m.Later q :=
  ⟨h'.grammarId_eq.trans h.grammarId_eq, h.table.trans h'.table⟩

theorem later_of_setWeights {m p : Perceptron α} {weights : Array α} (h : m.setWeights weights = .ok p) :
    m.Later p ∧ p.weights = weights := by
  unfold setWeights at h
  split at h
  · cases h
    exact ⟨⟨rfl, .refl _⟩, rfl⟩
  · cases h

/-- The same model at a later time, without new features if its table is frozen. -/
structure Grows (m p : Perceptron α) : Prop where
  grammarId_eq : p.grammarId = m.grammarId
  table : m.table.Grows p.table

theorem Grows.refl (m : Perceptron α) : m.Grows m := ⟨rfl, .refl _⟩

theorem Grows.trans {m p q : Perceptron α} (h : m.Grows p) (h' : p.Grows q) : m.Grows q :=
  ⟨h'.grammarId_eq.trans h.grammarId_eq, h.table.trans h'.table⟩

theorem Grows.later {m p : Perceptron α} (h : m.Grows p) : m.Later p := ⟨h.grammarId_eq, h.table.toExtends⟩

theorem Later.grows {m p : Perceptron α} (h : m.Later p) (hopen : m.table.frozen = false) : m.Grows p :=
  ⟨h.grammarId_eq, h.table, fun hfrozen => by cases hopen.symm.trans hfrozen⟩

theorem register_ok {m m' : Perceptron α} {ctx : Context} {e : Expansion} {indices : List Nat}
    (h : m.register ctx e = .ok (indices, m')) :
    m.Grows m' ∧ m'.table.frozen = m.table.frozen ∧ ∀ p, m'.Grows p → p.features ctx e = .ok indices := by
  unfold register at h
  obtain ⟨rule, hrule, h⟩ := except_bind_eq_ok.mp h
  obtain ⟨hsymbols, hknown⟩ := Finds.features ctx rule e m.table.symbols
  obtain ⟨⟨keys, symbols⟩, hrun⟩ : ∃ r, (e.features .grow ctx rule).run m.table.symbols = r := ⟨_, rfl⟩
  rw [hrun] at hsymbols hknown h
  obtain ⟨hgrows, hfrozen, hfound⟩ := FeatureTable.registerAll_spec keys { m.table with symbols := symbols }
  cases h
  refine ⟨⟨rfl, ⟨⟨hgrows.get?, hsymbols.trans hgrows.symbols⟩, hgrows.frozen⟩⟩, hfrozen, fun p hp => ?_⟩
  rw [features, hrule, except_bind_eq_ok]
  refine ⟨rule, rfl, ?_⟩
  rw [lookup, hknown _ (hgrows.symbols.trans hp.table.symbols), hfound _ hp.table]
  rfl

end Perceptron

end Categorial
