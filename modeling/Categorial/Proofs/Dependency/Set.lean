import Categorial.Dependency
import Categorial.Proofs.Lists
import Mathlib.Data.List.Perm.Subperm
set_option autoImplicit false

namespace Categorial

instance : Std.TransOrd Dependency :=
  inferInstanceAs (Std.TransCmp (compareLex (compareOn Dependency.target) (compareLex (compareOn Dependency.source)
    (compareLex (compareOn Dependency.cat) (compareOn Dependency.slot)))))

instance : Std.LawfulEqOrd Dependency where
  eq_of_compare {a b} h := by
    have hparts : (compare a.target b.target).then ((compare a.source b.source).then
      ((compare a.cat b.cat).then (compare a.slot b.slot))) = .eq := h
    simp only [Ordering.then_eq_eq, Std.LawfulEqOrd.compare_eq_iff_eq] at hparts
    obtain ⟨htarget, hsource, hcat, hslot⟩ := hparts
    cases a
    cases b
    cases htarget
    cases hsource
    cases hcat
    cases hslot
    rfl

namespace DependencySet

def Ascending (ds : List Dependency) : Prop := ds.Pairwise fun a b => compare a b = .lt

theorem Ascending.nodup {ds : List Dependency} (h : Ascending ds) : ds.Nodup :=
  h.imp fun hlt => by
    rintro rfl
    simp at hlt

theorem mem_insertInto {d x : Dependency} {ds : List Dependency} : x ∈ insertInto d ds ↔ x = d ∨ x ∈ ds := by
  induction ds with
  | nil => simp [insertInto]
  | cons e rest ih =>
    unfold insertInto
    cases hcmp : compare d e with
    | lt => exact List.mem_cons
    | eq =>
      obtain rfl := Std.LawfulEqOrd.eq_of_compare hcmp
      simp
    | gt => rw [List.mem_cons, ih, List.mem_cons, or_left_comm]

theorem ascending_insertInto (d : Dependency) {ds : List Dependency} (h : Ascending ds) :
    Ascending (insertInto d ds) := by
  induction ds with
  | nil => exact List.pairwise_singleton _ _
  | cons e rest ih =>
    obtain ⟨hfirst, hrest⟩ := List.pairwise_cons.mp h
    unfold insertInto
    cases hcmp : compare d e with
    | lt =>
      refine List.pairwise_cons.mpr ⟨fun x hx => ?_, h⟩
      rcases List.mem_cons.mp hx with rfl | hx
      · exact hcmp
      · exact Std.TransCmp.lt_trans hcmp (hfirst x hx)
    | eq => exact h
    | gt =>
      refine List.pairwise_cons.mpr ⟨fun x hx => ?_, ih hrest⟩
      rcases mem_insertInto.mp hx with rfl | hx
      · exact Std.OrientedCmp.lt_of_gt hcmp
      · exact hfirst x hx

theorem mem_insertAll {x : Dependency} {ds : List Dependency} {s : DependencySet} :
    x ∈ (s.insertAll ds).toList ↔ x ∈ s.toList ∨ x ∈ ds := by
  induction ds generalizing s with
  | nil => simp [insertAll]
  | cons d ds ih =>
    have hrest : x ∈ ((s.insert d).insertAll ds).toList ↔ x ∈ (s.insert d).toList ∨ x ∈ ds := ih
    rw [insertAll, List.foldl_cons, List.mem_cons]
    exact hrest.trans (by rw [insert, mem_insertInto, or_comm (a := x = d), or_assoc])

theorem ascending_insertAll (ds : List Dependency) {s : DependencySet} (h : Ascending s.toList) :
    Ascending (s.insertAll ds).toList := by
  induction ds generalizing s with
  | nil => exact h
  | cons d ds ih => exact ih (ascending_insertInto d h)

theorem ext_of_ascending {ds ds' : List Dependency} (h : Ascending ds) (h' : Ascending ds')
    (hmem : ∀ x, x ∈ ds ↔ x ∈ ds') : ds = ds' := by
  have hperm := (List.perm_ext_iff_of_nodup h.nodup h'.nodup).mpr hmem
  refine List.Perm.eq_of_pairwise (fun a b _ _ hab hba => ?_) h h' hperm
  exact absurd hba (Std.OrientedCmp.not_lt_of_lt hab)

end DependencySet

open DependencySet in
theorem Grammar.mem_dependencies {g : Grammar} {t : Derivation} {x : Dependency} :
    x ∈ (g.dependencies t).toList ↔ x ∈ (g.decode t).2 := by
  rw [dependencies, mem_insertAll]
  simp [empty]

open DependencySet in
/-- Two derivations have the same set of dependencies if decoding them finds the same ones. -/
theorem Grammar.dependencies_eq_iff {g : Grammar} {t t' : Derivation} :
    g.dependencies t = g.dependencies t' ↔ ∀ x, x ∈ (g.decode t).2 ↔ x ∈ (g.decode t').2 := by
  refine ⟨fun h x => ?_, fun h => ?_⟩
  · rw [← mem_dependencies, ← mem_dependencies, h]
  · have hlists := ext_of_ascending (ascending_insertAll (g.decode t).2 (s := .empty) List.Pairwise.nil)
      (ascending_insertAll (g.decode t').2 (s := .empty) List.Pairwise.nil) fun x => by
        rw [mem_insertAll, mem_insertAll, h]
    exact congrArg DependencySet.mk hlists

theorem length_filter_contains_le {κ : Type} [BEq κ] [LawfulBEq κ] {xs : List κ} (h : xs.Nodup) (ys : List κ) :
    (xs.filter ys.contains).length ≤ min xs.length ys.length := by
  refine Nat.le_min.mpr ⟨List.length_filter_le .., ?_⟩
  refine (List.subperm_of_subset (h.filter _) fun x hx => ?_).length_le
  exact List.contains_iff_mem.mp (List.mem_filter.mp hx).2

namespace DependencySet

theorem nodup_pairs (s : DependencySet) : s.pairs.Nodup := by
  let before (p q : Nat × Nat) : Bool := (compare p.1 q.1).then (compare p.2 q.2) != .gt
  have hbefore (p q : Nat × Nat) : before p q = true ↔ p.1 < q.1 ∨ p.1 = q.1 ∧ p.2 ≤ q.2 := by
    simp only [before, bne_iff_ne, ne_eq, Ordering.then_eq_gt, Nat.compare_eq_gt, Nat.compare_eq_eq]
    omega
  refine nodup_eraseReps (r := fun p q => before p q = true) (fun p q hpq hqp => ?_)
    (List.pairwise_mergeSort (fun p q r hpq hqr => ?_) (fun p q => ?_) _)
  · rw [hbefore] at hpq hqp
    exact Prod.ext (by omega) (by omega)
  · rw [hbefore] at hpq hqr ⊢
    omega
  · rw [Bool.or_eq_true, hbefore, hbefore]
    omega

theorem length_pairs_le (s : DependencySet) : s.pairs.length ≤ s.size := by
  have hlength := (eraseReps_sublist ((s.toList.map Dependency.pair).mergeSort fun a b =>
    ((compare a.1 b.1).then (compare a.2 b.2)) != .gt)).length_le
  rwa [List.length_mergeSort, List.length_map] at hlength

theorem labeledMatches_le {s : DependencySet} (h : Ascending s.toList) (t : DependencySet) :
    s.labeledMatches t ≤ min s.size t.size :=
  length_filter_contains_le h.nodup t.toList

theorem unlabeledMatches_le (s t : DependencySet) :
    s.unlabeledMatches t ≤ min s.pairs.length t.pairs.length :=
  length_filter_contains_le s.nodup_pairs t.pairs

end DependencySet

theorem Grammar.ascending_dependencies (g : Grammar) (t : Derivation) :
    DependencySet.Ascending (g.dependencies t).toList :=
  DependencySet.ascending_insertAll (g.decode t).2 (s := .empty) List.Pairwise.nil

end Categorial
