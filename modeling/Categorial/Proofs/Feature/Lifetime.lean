import Categorial.Proofs.Feature.Interrupted
import Categorial.Proofs.Feature.Pruned
set_option autoImplicit false

/-!
The life of a table. Features are registered and read from descriptions and weight files, some of which fail, and
rare ones are dropped. At all times the numbers of features are their places; only dropping changes them, and it
tells the new ones.
-/

namespace Categorial

namespace FeatureTable

theorem keys_register_frozen {t : FeatureTable} (hfrozen : t.frozen = true) (key : Feature) :
    (t.register key).2.keys = t.keys := by
  unfold register
  cases t.get? key with
  | some i => rfl
  | none =>
    simp only [hfrozen]
    rfl

/-- What is done to a table. Descriptions and weight files may be faulty. -/
inductive Operation where
  | register (key : Feature)
  | freeze
  | thaw
  | prune (cutoff : Nat)
  | readDescription (g : Grammar) (s : List Char)
  | readWeights (g : Grammar) (path : String) (lines : List Text.Line)

section

variable (α : Type) [Scalar α] [Written α]

/-- The table that is left, with weights of type `α` in weight files. A description that cannot be read changes
nothing, a weight file that cannot be read may have. -/
def perform (t : FeatureTable) : Operation → FeatureTable
  | .register key => (t.register key).2
  | .freeze => t.freeze
  | .thaw => t.thaw
  | .prune cutoff => (t.prune cutoff).2
  | .readDescription g s =>
    match t.readDescription g s with
    | .ok (_, t') => t'
    | .error _ => t
  | .readWeights g path lines =>
    (WeightFile.read g path t lines : FeatureTable × Except Error (String × Option (Array α))).1

def after (ops : List Operation) : FeatureTable := ops.foldl (perform α) .empty

theorem after_append (ops more : List Operation) : after α (ops ++ more) = more.foldl (perform α) (after α ops) :=
  List.foldl_append

variable {t : FeatureTable}

theorem perform_readDescription (g : Grammar) (s : List Char) :
    t.perform α (.readDescription g s) = t ∨ ∃ d, t.perform α (.readDescription g s) = t.numbering d := by
  rw [perform, readDescription]
  cases Description.read g s with
  | error e => exact .inl rfl
  | ok d => exact .inr ⟨d, rfl⟩

theorem Consistent.perform (h : t.Consistent) (op : Operation) : (t.perform α op).Consistent := by
  cases op with
  | register key => exact h.register key
  | freeze => exact ⟨h.keys, h.counts, h.symbols⟩
  | thaw => exact ⟨h.keys, h.counts, h.symbols⟩
  | prune cutoff => exact h.prune cutoff
  | readDescription g s =>
    rw [FeatureTable.perform]
    split
    · rename_i hread
      exact WeightFile.consistent_readDescription h hread
    · exact h
  | readWeights g path lines => exact WeightFile.consistent_read h lines rfl

theorem extends_perform (t : FeatureTable) {op : Operation} (hop : ∀ cutoff, op ≠ .prune cutoff) :
    t.Extends (t.perform α op) := by
  cases op with
  | register key =>
    obtain ⟨i, t', hregister, hgrows, -⟩ := t.register_spec key
    rw [perform, hregister]
    exact hgrows.toExtends
  | freeze => exact ⟨fun _ _ h => h, .refl _⟩
  | thaw => exact ⟨fun _ _ h => h, .refl _⟩
  | prune cutoff => exact absurd rfl (hop cutoff)
  | readDescription g s =>
    obtain hsame | ⟨d, hnumbering⟩ := perform_readDescription α g s (t := t)
    · rw [hsame]
      exact .refl t
    · rw [hnumbering]
      exact (t.appended_numbering d).toExtends
  | readWeights g path lines => exact (WeightFile.appended_read t lines).toExtends

theorem frozen_perform (hfrozen : t.frozen = true) {op : Operation} (hop : op ≠ .thaw) :
    (t.perform α op).frozen = true ∧ ∀ key ∈ (t.perform α op).keys, key ∈ t.keys := by
  cases op with
  | register key =>
    obtain ⟨i, t', hregister, -, hfrozen', -⟩ := t.register_spec key
    have hkeys := keys_register_frozen hfrozen key
    rw [hregister] at hkeys
    rw [perform, hregister]
    exact ⟨hfrozen'.trans hfrozen, fun _ hkey => hkeys ▸ hkey⟩
  | freeze => exact ⟨rfl, fun _ hkey => hkey⟩
  | thaw => exact absurd rfl hop
  | prune cutoff =>
    refine ⟨hfrozen, fun key hkey => ?_⟩
    obtain ⟨i, -, hi, -⟩ := mem_keys_prune hkey
    exact Array.mem_of_getElem? hi
  | readDescription g s =>
    obtain hsame | ⟨d, hnumbering⟩ := perform_readDescription α g s (t := t)
    · rw [hsame]
      exact ⟨hfrozen, fun _ hkey => hkey⟩
    · rw [hnumbering]
      exact ⟨hfrozen, fun _ hkey => hkey⟩
  | readWeights g path lines =>
    obtain ⟨symbols, hread⟩ := WeightFile.table_read_frozen (α := α) hfrozen lines
    rw [perform, hread]
    exact ⟨hfrozen, fun _ hkey => hkey⟩

/-! The same over many steps. -/

theorem Consistent.foldl (ops : List Operation) : ∀ {t : FeatureTable}, t.Consistent →
    (ops.foldl (FeatureTable.perform α) t).Consistent := by
  induction ops with
  | nil => exact fun h => h
  | cons op ops ih => exact fun h => ih (h.perform α op)

theorem extends_foldl {ops : List Operation} : ∀ (t : FeatureTable), (∀ cutoff, .prune cutoff ∉ ops) →
    t.Extends (ops.foldl (perform α) t) := by
  induction ops with
  | nil => exact fun t _ => .refl t
  | cons op ops ih =>
    intro t hops
    have hop : ∀ cutoff, op ≠ .prune cutoff := fun cutoff heq => hops cutoff (heq ▸ List.mem_cons_self)
    have hrest : ∀ cutoff, .prune cutoff ∉ ops := fun cutoff hmem => hops cutoff (List.mem_cons_of_mem _ hmem)
    exact (extends_perform α t hop).trans (ih _ hrest)

theorem keys_foldl_frozen {ops : List Operation} : ∀ {t : FeatureTable}, t.frozen = true → .thaw ∉ ops →
    ∀ key ∈ (ops.foldl (perform α) t).keys, key ∈ t.keys := by
  induction ops with
  | nil => exact fun _ _ _ hkey => hkey
  | cons op ops ih =>
    intro t hfrozen hops key hkey
    obtain ⟨hop, hrest⟩ := not_or.mp (List.mem_cons.not.mp hops)
    obtain ⟨hfrozen', hkeys⟩ := frozen_perform α hfrozen (Ne.symm hop)
    exact hkeys key (ih hfrozen' hrest key hkey)

theorem consistent_after (ops : List Operation) : (after α ops).Consistent := consistent_empty.foldl α ops

/-- Whatever was done to a table, its features differ from each other, have their places as numbers, and have counts.
Whatever is done next, they keep their numbers unless some are dropped, and there are no others if the table is
frozen and not thawed. When features are dropped, those are dropped that were seen too seldom; the others stay in
their order and get the numbers that they have in the table from then on. -/
theorem numbers_after (ops : List Operation) :
    (after α ops).keys.toList.Nodup ∧
    (∀ key i, (after α ops).get? key = some i ↔ (after α ops).keys[i]? = some key) ∧
    (after α ops).counts.size = (after α ops).size ∧
    (∀ more, (∀ cutoff, .prune cutoff ∉ more) → ∀ key i, (after α ops).get? key = some i →
      (after α (ops ++ more)).get? key = some i) ∧
    ((after α ops).frozen = true → ∀ more, .thaw ∉ more →
      ∀ key ∈ (after α (ops ++ more)).keys, key ∈ (after α ops).keys) ∧
    ∀ cutoff, Pruning (after α ops) cutoff ((after α ops).prune cutoff).1 (after α (ops ++ [.prune cutoff])) := by
  have h := consistent_after α ops
  refine ⟨h.keys.nodup, h.keys, h.counts, fun more hmore => ?_, fun hfrozen more hmore => ?_, fun cutoff => ?_⟩
  · rw [after_append]
    exact (extends_foldl α (after α ops) hmore).get?
  · rw [after_append]
    exact keys_foldl_frozen α hfrozen hmore
  · rw [after_append]
    exact h.pruning cutoff

end

end FeatureTable

end Categorial
