import Categorial.Proofs.Grammar.Making
import Mathlib.Data.List.Perm.Subperm
set_option autoImplicit false

namespace Categorial

/-- A node with its children, or a root, told by categories only. -/
inductive LocalTree (γ : Type) where
  | word (c : γ)
  | unary (child c : γ)
  | binary (left right c : γ)
  | root (c : γ)
  deriving DecidableEq, Repr

namespace LocalTree

variable {γ δ : Type}

/-- The same under other names, if all of its categories have one. -/
def rename (f : γ → Option δ) : LocalTree γ → Option (LocalTree δ)
  | word c => (f c).map word
  | unary child c => (f child).bind fun child => (f c).map (unary child)
  | binary left right c => (f left).bind fun left => (f right).bind fun right => (f c).map (binary left right)
  | root c => (f c).map root

theorem rename_mono {f f' : γ → Option δ} (h : ∀ {a d}, f a = some d → f' a = some d) {q : LocalTree γ}
    {p : LocalTree δ} (hq : q.rename f = some p) : q.rename f' = some p := by
  cases q <;> simp only [rename, Option.bind_eq_some_iff, Option.map_eq_some_iff] at hq ⊢
  · obtain ⟨c, hc, rfl⟩ := hq
    exact ⟨c, h hc, rfl⟩
  · obtain ⟨x, hx, c, hc, rfl⟩ := hq
    exact ⟨x, h hx, c, h hc, rfl⟩
  · obtain ⟨x, hx, y, hy, c, hc, rfl⟩ := hq
    exact ⟨x, h hx, y, h hy, c, h hc, rfl⟩
  · obtain ⟨c, hc, rfl⟩ := hq
    exact ⟨c, h hc, rfl⟩

theorem rename_injective {f : γ → Option δ} (h : ∀ {a a' d}, f a = some d → f a' = some d → a = a')
    {q q' : LocalTree γ} {p : LocalTree δ} (hq : q.rename f = some p) (hq' : q'.rename f = some p) : q = q' := by
  cases q <;> cases q' <;> simp only [rename, Option.bind_eq_some_iff, Option.map_eq_some_iff] at hq hq' <;> grind

end LocalTree

namespace BankTree

mutual

def nodes : BankTree → List BankTree
  | leaf c token => [leaf c token]
  | node c head children => node c head children :: nodesOf children

def nodesOf : List BankTree → List BankTree
  | [] => []
  | t :: ts => t.nodes ++ nodesOf ts

end

theorem nodes_ne_nil (t : BankTree) : t.nodes ≠ [] := by
  cases t <;> simp [nodes]

theorem Proper.cat {t : BankTree} (h : t.Proper) : t.cat.Proper := by
  cases h with
  | leaf hc => exact hc
  | node hc _ => exact hc

theorem Proper.child {c : Category} {head : Nat} {children : List BankTree} (h : Proper (.node c head children)) :
    ∀ t ∈ children, t.Proper := by
  cases h with
  | node _ hchildren => exact hchildren

def localTree? : BankTree → Option (LocalTree Category)
  | leaf c _ => some (.word c)
  | node c _ [child] => some (.unary child.cat c)
  | node c _ [left, right] => some (.binary left.cat right.cat c)
  | node _ _ _ => none

def localTrees (t : BankTree) : List (LocalTree Category) := .root t.cat :: t.nodes.filterMap localTree?

/-- What a walk over the tree comes to, a node after those below it, and whether the walk comes to its end: a node that
has neither one child nor two stops it. -/
def walk : BankTree → List (LocalTree Category) × Bool
  | leaf c _ => ([.word c], true)
  | node c _ [child] =>
    match child.walk with
    | (below, true) => (below ++ [.unary child.cat c], true)
    | (below, false) => (below, false)
  | node c _ [left, right] =>
    match left.walk, right.walk with
    | (below, true), (behind, true) => (below ++ behind ++ [.binary left.cat right.cat c], true)
    | (below, true), (behind, false) => (below ++ behind, false)
    | (below, false), _ => (below, false)
  | node _ _ _ => ([], false)

theorem walk_unary (c : Category) (head : Nat) (child : BankTree) : (node c head [child]).walk =
    (if child.walk.2 then child.walk.1 ++ [.unary child.cat c] else child.walk.1, child.walk.2) := by
  rw [walk]
  rcases child.walk with ⟨below, _ | _⟩ <;> rfl

theorem walk_binary (c : Category) (head : Nat) (left right : BankTree) : (node c head [left, right]).walk =
    if left.walk.2 then
      (left.walk.1 ++ right.walk.1 ++ (if right.walk.2 then [.binary left.cat right.cat c] else []), right.walk.2)
    else (left.walk.1, false) := by
  rw [walk]
  rcases left.walk with ⟨below, _ | _⟩
  · rfl
  · rcases right.walk with ⟨behind, _ | _⟩
    · simp
    · rfl

/-- What a grammar gets to see of the tree: all of it, or what comes before a fault. -/
def counted (t : BankTree) : List (LocalTree Category) := if t.walk.2 then t.walk.1 ++ [.root t.cat] else t.walk.1

theorem subperm_walk (t : BankTree) : t.walk.1.Subperm (t.nodes.filterMap localTree?) ∧
    (t.walk.2 = true → t.walk.1.Perm (t.nodes.filterMap localTree?)) := by
  induction t using BankTree.induction with
  | leaf c token => exact ⟨.refl _, fun _ => .refl _⟩
  | node c head children ih =>
    rcases children with _ | ⟨left, _ | ⟨right, _ | _⟩⟩
    · exact ⟨List.nil_subperm, nofun⟩
    · obtain ⟨hsub, hperm⟩ := ih left (by simp)
      simp only [walk, nodes, nodesOf, List.append_nil, List.filterMap_cons, localTree?]
      rcases hwalk : left.walk with ⟨below, _ | _⟩ <;> rw [hwalk] at hsub hperm
      · exact ⟨hsub.trans (List.sublist_cons_self _ _).subperm, nofun⟩
      · have hall := (List.perm_append_singleton _ _).trans ((hperm rfl).cons (.unary left.cat c))
        exact ⟨hall.subperm, fun _ => hall⟩
    · obtain ⟨hleft, hleft'⟩ := ih left (by simp)
      obtain ⟨hright, hright'⟩ := ih right (by simp)
      simp only [walk, nodes, nodesOf, List.append_nil, List.filterMap_cons, localTree?, List.filterMap_append]
      have hskip {below : List (LocalTree Category)}
          (h : below.Subperm (left.nodes.filterMap localTree? ++ right.nodes.filterMap localTree?)) :
          below.Subperm (.binary left.cat right.cat c ::
            (left.nodes.filterMap localTree? ++ right.nodes.filterMap localTree?)) :=
        h.trans (List.sublist_cons_self _ _).subperm
      rcases hl : left.walk with ⟨below, _ | _⟩ <;> rw [hl] at hleft hleft'
      · exact ⟨hskip (hleft.trans (List.sublist_append_left _ _).subperm), nofun⟩
      · rcases hr : right.walk with ⟨behind, _ | _⟩ <;> rw [hr] at hright hright'
        · exact ⟨hskip (hleft.append hright), nofun⟩
        · have hall := (List.perm_append_singleton _ _).trans
            (((hleft' rfl).append (hright' rfl)).cons (.binary left.cat right.cat c))
          exact ⟨hall.subperm, fun _ => hall⟩
    · exact ⟨List.nil_subperm, nofun⟩

theorem perm_counted {t : BankTree} (h : t.walk.2 = true) : t.counted.Perm t.localTrees := by
  rw [counted, if_pos h]
  exact (List.perm_append_singleton _ _).trans ((t.subperm_walk.2 h).cons _)

theorem root_not_mem (t : BankTree) (c : Category) : .root c ∉ t.nodes.filterMap localTree? := by
  intro hmem
  obtain ⟨node, -, hroot⟩ := List.mem_filterMap.mp hmem
  unfold localTree? at hroot
  split at hroot <;> cases hroot

theorem count_localTrees_le (t : BankTree) (p : LocalTree Category) : t.localTrees.count p ≤ t.nodes.length := by
  have hpos : 0 < t.nodes.length := List.length_pos_iff.mpr t.nodes_ne_nil
  by_cases hroot : .root t.cat = p
  · rw [localTrees, ← hroot, List.count_cons_self, List.count_eq_zero.mpr (t.root_not_mem t.cat)]
    exact hpos
  · rw [localTrees, List.count_cons_of_ne hroot]
    exact Nat.le_trans List.count_le_length (List.length_filterMap_le _ _)

theorem count_flatMap_localTrees_le (trees : List BankTree) (p : LocalTree Category) :
    (trees.flatMap localTrees).count p ≤ (trees.flatMap nodes).length := by
  induction trees with
  | nil => exact Nat.le_refl 0
  | cons t trees ih =>
    simp only [List.flatMap_cons, List.count_append, List.length_append]
    exact Nat.add_le_add (t.count_localTrees_le p) ih

end BankTree

end Categorial
