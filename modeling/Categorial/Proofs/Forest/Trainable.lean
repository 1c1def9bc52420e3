import Categorial.Proofs.Feature.Pruned
import Categorial.Proofs.Forest.Choices
set_option autoImplicit false

namespace Categorial

namespace Perceptron

variable {α : Type}

/-- The same model at a later time: features may have been registered. -/
structure Onward (m m' : Perceptron α) : Prop where
  grammarId_eq : m'.grammarId = m.grammarId
  consistent : m.table.Consistent → m'.table.Consistent
  size : m.table.size ≤ m'.table.size

theorem Onward.refl (m : Perceptron α) : m.Onward m := ⟨rfl, id, Nat.le_refl _⟩

theorem Onward.trans {m m' m'' : Perceptron α} (h : m.Onward m') (h' : m'.Onward m'') : m.Onward m'' :=
  ⟨h'.grammarId_eq.trans h.grammarId_eq, fun ht => h'.consistent (h.consistent ht), h.size.trans h'.size⟩

theorem onward_of_register {m m' : Perceptron α} {ctx : Context} {e : Expansion} {indices : List Nat}
    (h : m.register ctx e = .ok (indices, m')) : m.Onward m' := by
  obtain ⟨rule, -, h⟩ := except_bind_eq_ok.mp h
  have hfound : m.table.symbols.Consistent → ((e.features .grow ctx rule).run m.table.symbols).2.Consistent :=
    e.consistent_features .grow ctx rule
  obtain ⟨⟨keys, symbols⟩, hrun⟩ : ∃ r, (e.features .grow ctx rule).run m.table.symbols = r := ⟨_, rfl⟩
  rw [hrun] at hfound h
  cases h
  have hconsistent : m.table.Consistent → FeatureTable.Consistent { m.table with symbols := symbols } :=
    fun ht => ⟨ht.keys, ht.counts, hfound ht.symbols⟩
  exact ⟨rfl, fun ht => (hconsistent ht).registerAll keys,
    FeatureTable.size_registerAll keys { m.table with symbols := symbols }⟩

theorem lt_size_of_features {p : Perceptron α} (ht : p.table.Consistent) {ctx : Context} {e : Expansion}
    {indices : List Nat} (h : p.features ctx e = .ok indices) {i : Nat} (hi : i ∈ indices) : i < p.table.size := by
  obtain ⟨rule, -, h⟩ := except_bind_eq_ok.mp h
  cases h
  obtain ⟨key, -, hkey⟩ := List.mem_filterMap.mp hi
  exact ht.keys.lt_size hkey

end Perceptron

namespace Registering

variable {α β γ : Type}

/-- However the computation ends, it only registers features. -/
def Registers (x : Registering α β) : Prop := ∀ m : Perceptron α, m.Onward (x.run m).2

theorem registers_pure (a : β) : Registers (pure a : Registering α β) := fun m => .refl m

theorem registers_check (x : Except Error β) : Registers (check x : Registering α β) := fun m => .refl m

theorem registers_get : Registers (get : Registering α (Perceptron α)) := fun m => .refl m

theorem registers_bind {x : Registering α β} {f : β → Registering α γ} (hx : Registers x)
    (hf : ∀ a, Registers (f a)) : Registers (x >>= f) := by
  intro m
  have hfirst := hx m
  rw [exceptT_run_bind]
  obtain ⟨⟨result, m'⟩, hrun⟩ : ∃ r, x.run m = r := ⟨_, rfl⟩
  rw [hrun] at hfirst ⊢
  cases result with
  | error e => exact hfirst
  | ok a => exact hfirst.trans (hf a m')

theorem registers_mapM {f : β → Registering α γ} (hf : ∀ x, Registers (f x)) (xs : List β) :
    Registers (xs.mapM f) := by
  induction xs with
  | nil => exact registers_pure []
  | cons x xs ih =>
    rw [List.mapM_cons]
    exact registers_bind (hf x) fun _ => registers_bind ih fun _ => registers_pure _

theorem registers_foldlM {f : γ → β → Registering α γ} (hf : ∀ s x, Registers (f s x)) (xs : List β) :
    ∀ s, Registers (xs.foldlM f s) := by
  induction xs with
  | nil => exact fun s => registers_pure s
  | cons x xs ih =>
    intro s
    rw [List.foldlM_cons]
    exact registers_bind (hf s x) ih

theorem registers_features (ctx : Context) (e : Expansion) :
    Registers (features ctx e : Registering α (List Nat)) := by
  intro m
  rw [run_features]
  cases hregister : m.register ctx e with
  | error cause => exact .refl m
  | ok result => exact Perceptron.onward_of_register hregister

theorem run_attempt (x : Registering α (Option β)) (m : Perceptron α) :
    ∃ found, (attempt x).run m = (.ok found, (x.run m).2) ∧ ∀ b, found = some b → (x.run m).1 = .ok (some b) := by
  rw [attempt, exceptT_run_tryCatch]
  obtain ⟨⟨result, m'⟩, hrun⟩ : ∃ r, x.run m = r := ⟨_, rfl⟩
  rw [hrun]
  cases result with
  | error e =>
    refine ⟨none, rfl, fun b hb => ?_⟩
    cases hb
  | ok found =>
    refine ⟨found, rfl, fun b hb => ?_⟩
    rw [hb]

end Registering

namespace Forest

variable {α : Type}

open Registering

theorem registers_pack (f : FineChart α) (sentence : Nat) (gold : Derivation) : Registers (pack f sentence gold) :=
  have hedges : ∀ nodes item, Registers (packItem f gold.stepKeys nodes item) := fun _ _ =>
    registers_bind (registers_mapM (fun _ => registers_bind (registers_features _ _) fun _ => registers_pure _) _)
      fun _ => registers_pure _
  have hroots : ∀ nodes r, Registers (packRoot f gold nodes r) := fun _ _ =>
    registers_bind (registers_features _ _) fun _ => registers_pure _
  registers_bind registers_get fun _ => registers_bind (registers_check _) fun _ =>
    registers_bind (registers_mapM (fun e => registers_features f.context e) _) fun _ =>
    registers_bind (registers_foldlM hedges _ _) fun _ => registers_bind (registers_mapM (hroots _) _) fun _ =>
    registers_pure _

theorem consistent_of_pack {f : FineChart α} {sentence : Nat} {gold : Derivation} {m m' : Perceptron α}
    {result : Except Error (Option Forest)} (ht : m.table.Consistent)
    (h : (pack f sentence gold).run m = (result, m')) : m'.table.Consistent := by
  have honward := (registers_pack f sentence gold m).consistent ht
  rwa [h] at honward

theorem sentence_of_pack {f : FineChart α} {sentence : Nat} {gold : Derivation} {m m' : Perceptron α}
    {forest : Forest} (h : (pack f sentence gold).run m = (.ok (some forest), m')) :
    forest.sentence = sentence := by
  obtain ⟨_, _, -, h⟩ := exceptT_run_bind_eq_ok.mp h
  obtain ⟨_, _, -, h⟩ := exceptT_run_bind_eq_ok.mp h
  obtain ⟨_, _, -, h⟩ := exceptT_run_bind_eq_ok.mp h
  obtain ⟨_, _, -, h⟩ := exceptT_run_bind_eq_ok.mp h
  obtain ⟨roots, _, -, h⟩ := exceptT_run_bind_eq_ok.mp h
  have hforest := Except.ok.inj (congrArg Prod.fst h)
  split at hforest
  · cases hforest
    rfl
  · cases hforest

/-- Every feature of the forest is below a bound. -/
structure Below (n : Nat) (f : Forest) : Prop where
  edges : ∀ node ∈ f.nodes, ∀ e ∈ node, ∀ i ∈ e.features, i < n
  roots : ∀ r ∈ f.roots, ∀ i ∈ r.features, i < n
  gold : ∀ entry ∈ f.gold, entry.1 < n

theorem Below.mono {n n' : Nat} {f : Forest} (h : f.Below n) (hle : n ≤ n') : f.Below n' where
  edges node hnode e he i hi := Nat.lt_of_lt_of_le (h.edges node hnode e he i hi) hle
  roots r hr i hi := Nat.lt_of_lt_of_le (h.roots r hr i hi) hle
  gold entry hentry := Nat.lt_of_lt_of_le (h.gold entry hentry) hle

theorem below_renumber {numbers : Renumbering} {n : Nat}
    (hn : ∀ (i : Nat) (new : Nat), numbers[i]? = some (some new) → new < n) (f : Forest) :
    (f.renumber numbers).Below n := by
  have hfeature : ∀ {i new}, newNumber? numbers i = some new → new < n := fun {i new} h =>
    hn i new (Option.join_eq_some_iff.mp h)
  have hfeatures : ∀ {features : List Nat}, ∀ i ∈ features.filterMap (newNumber? numbers), i < n := by
    intro features i hi
    obtain ⟨_, -, hnew⟩ := List.mem_filterMap.mp hi
    exact hfeature hnew
  constructor
  · intro node hnode e he
    obtain ⟨node', -, rfl⟩ := List.mem_map.mp hnode
    obtain ⟨e', -, rfl⟩ := List.mem_map.mp he
    exact hfeatures
  · intro r hr
    obtain ⟨r', -, rfl⟩ := List.mem_map.mp hr
    exact hfeatures
  · intro entry hentry
    obtain ⟨⟨feature, n⟩, -, hmap⟩ := List.mem_filterMap.mp hentry
    obtain ⟨new, hnew, rfl⟩ := Option.map_eq_some_iff.mp hmap
    exact hfeature hnew

theorem below_of_packs {forest : Forest} {f : FineChart α} {p : Perceptron α} {gold : Derivation}
    (ht : p.table.Consistent) (h : forest.Packs f p) (hgold : forest.CountsGold f p gold) :
    forest.Below p.table.size := by
  constructor
  · intro node hnode e he i hi
    obtain ⟨item, -, hitem⟩ := mem_left_of_forall₂ h.nodes hnode
    obtain ⟨_, -, hedge⟩ := mem_left_of_forall₂ hitem he
    exact Perceptron.lt_size_of_features ht hedge.features hi
  · intro r hr i hi
    obtain ⟨_, -, hroot⟩ := mem_left_of_forall₂ h.roots hr
    exact Perceptron.lt_size_of_features ht hroot.features hi
  · intro entry hentry
    obtain ⟨steps, lists, -, hlists, hcounts⟩ := hgold
    rw [hcounts] at hentry
    obtain ⟨indices, hindices, hi⟩ := List.mem_flatten.mp (Tally.key_of_mem_ofList hentry)
    obtain ⟨_, -, hfeatures⟩ := mem_left_of_forall₂ hlists hindices
    exact Perceptron.lt_size_of_features ht hfeatures hi

/-- Some root has a node that can be built. -/
def Spanned (f : Forest) : Prop := ∃ r ∈ f.roots, ∃ node, f.nodes[r.node]? = some node ∧ node ≠ []

theorem Spanned.renumber {f : Forest} (h : f.Spanned) (numbers : Renumbering) : (f.renumber numbers).Spanned := by
  obtain ⟨r, hr, node, hnode, hne⟩ := h
  have hnode' : (f.renumber numbers).nodes[r.node]? = some (node.map fun e =>
      { e with features := e.features.filterMap (newNumber? numbers) }) := by
    rw [Forest.renumber, List.getElem?_map, hnode]
    rfl
  exact ⟨_, List.mem_map_of_mem hr, _, hnode', mt List.map_eq_nil_iff.mp hne⟩

variable [Scalar α]

theorem Spanned.exists_best? {f : Forest} (h : f.Spanned) (weights : Array α) :
    ∃ prediction, f.best? weights = some prediction := by
  obtain ⟨r, hr, node, hnode, hne⟩ := h
  obtain ⟨before, -, hpick⟩ := (getElem?_foldl_push (ForestNode.pick? weights) f.nodes).2 r.node node hnode
  obtain ⟨e, -, hfirst⟩ := exists_firstBest? (ForestEdge.score weights before) hne
  have hpick : (f.picks weights).pick? r.node = some (e.pick before (e.score weights before)) := by
    have hget : (f.picks weights)[r.node]? = some (ForestNode.pick? weights before node) := hpick
    rw [Picks.pick?, hget, Option.join_some, ForestNode.pick?, hfirst]
    rfl
  have hcandidates : f.candidates (f.picks weights) ≠ [] := List.ne_nil_of_mem (mem_candidates.mpr ⟨hr, hpick⟩)
  obtain ⟨_, -, hbest⟩ := exists_firstBest? (rootScore weights) hcandidates
  rw [best?, hbest]
  exact ⟨_, rfl⟩

theorem spanned_of_packs {c : CoarseChart α} {tags : Supertags α} {m : Model α} {retain : Retain} {beam : Option α}
    {f : FineChart α} {p : Perceptron α} {forest : Forest} (hc : c.Saturated tags)
    (hf : FineChart.build c m retain beam = .ok f) (h : forest.Packs f p) : forest.Spanned := by
  have hsound := FineChart.sound_build hc hf
  have hroots : f.roots = f.findRoots m := by
    conv => lhs; rw [FineChart.build_ok hf]
  obtain ⟨packed, hpacked⟩ := List.exists_mem_of_ne_nil _ h.spans
  obtain ⟨r, hr, hroot⟩ := mem_left_of_forall₂ h.roots hpacked
  obtain ⟨_, _, x, -, -, hx, -⟩ := hsound.root_of_mem hroots hr
  obtain ⟨_, _, hmade⟩ := hsound.made _ _ hx.1
  obtain ⟨e, rest, hedges, -⟩ := hmade.exists_first
  obtain ⟨node, hnode, hof⟩ := h.node_of hx.1
  refine ⟨packed, hpacked, node, hroot.node_eq ▸ hnode, ?_⟩
  rintro rfl
  rw [NodeOf, hedges] at hof
  cases hof

/-- A chart is packed into a forest to train on, or into none; the table is consistent either way. -/
theorem exists_packed {c : CoarseChart α} {tags : Supertags α} {m : Perceptron α} {f : FineChart α}
    (ht : m.table.Consistent) (hc : c.Saturated tags) (hf : FineChart.build c m.toModel .all none = .ok f)
    (sentence : Nat) (gold : Derivation) :
    ∃ found m', (attempt (pack f sentence gold)).run m = (.ok found, m') ∧ m.Onward m' ∧
      ∀ forest, found = some forest →
        forest.sentence = sentence ∧ forest.Below m'.table.size ∧ forest.Spanned := by
  obtain ⟨found, hrun, hfound⟩ := run_attempt (pack f sentence gold) m
  have honward : m.Onward ((pack f sentence gold).run m).2 := registers_pack f sentence gold m
  refine ⟨found, _, hrun, honward, fun forest hforest => ?_⟩
  have hpack : (pack f sentence gold).run m = (.ok (some forest), ((pack f sentence gold).run m).2) :=
    Prod.ext (hfound forest hforest) rfl
  obtain ⟨-, -, hpacks⟩ := packs_of_pack hpack
  obtain ⟨hpacks, hgold⟩ := hpacks _ (.refl _)
  exact ⟨sentence_of_pack hpack, below_of_packs (honward.consistent ht) hpacks hgold,
    spanned_of_packs hc hf hpacks⟩

end Forest

end Categorial
