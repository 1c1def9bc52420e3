import Categorial.Proofs.Fine.Kept
import Categorial.Proofs.Supertags.Obtained
set_option autoImplicit false

namespace Categorial

namespace Supertags

section

variable {α : Type}

/-- The scores with which a category is among some tags, in their order. -/
def scoresOf (tags : List (Tag α)) (cat : CatId) : List α := (tags.filter fun tag => tag.cat = cat).map Tag.score

def offers (t : Supertags α) (word : Nat) (cat : CatId) : List α := scoresOf (t.all word) cat

variable [Scalar α]

def raise : List α → α → List α
  | [], y => [y]
  | x :: xs, y => Scalar.max x y :: xs

theorem scoresOf_addTag (tags : List (Tag α)) (tag : Tag α) (cat : CatId) : scoresOf (addTag tags tag) cat =
    if tag.cat = cat then raise (scoresOf tags cat) tag.score else scoresOf tags cat := by
  induction tags with
  | nil =>
    by_cases hcat : tag.cat = cat <;> simp [addTag, scoresOf, raise, hcat]
  | cons t rest ih =>
    rw [addTag]
    by_cases hsame : t.cat = tag.cat
    · rw [if_pos hsame]
      by_cases hcat : tag.cat = cat <;> simp [scoresOf, raise, hsame, hcat]
    · rw [if_neg hsame]
      by_cases ht : t.cat = cat
      · have hcat : ¬tag.cat = cat := fun h => hsame (ht.trans h.symm)
        rw [if_neg hcat] at ih ⊢
        unfold scoresOf at ih ⊢
        rw [List.filter_cons_of_pos (by simpa using ht), List.filter_cons_of_pos (by simpa using ht),
          List.map_cons, List.map_cons, ih]
      · unfold scoresOf at ih ⊢
        rw [List.filter_cons_of_neg (by simpa using ht), List.filter_cons_of_neg (by simpa using ht), ih]

theorem scoresOf_foldl_addTag (extra tags : List (Tag α)) (cat : CatId) :
    scoresOf (extra.foldl addTag tags) cat = (scoresOf extra cat).foldl raise (scoresOf tags cat) := by
  induction extra generalizing tags with
  | nil => rfl
  | cons tag extra ih =>
    rw [List.foldl_cons, ih, scoresOf_addTag]
    by_cases hcat : tag.cat = cat <;> simp [scoresOf, hcat]

theorem foldl_raise (x : α) (xs ys : List α) : ys.foldl raise (x :: xs) = ys.foldl Scalar.max x :: xs := by
  induction ys generalizing x with
  | nil => rfl
  | cons y ys ih => exact ih (Scalar.max x y)

theorem offers_merge_perm (t other : Supertags α) (word : Nat) (cat : CatId) :
    ((t.merge other).offers word cat).Perm ((other.offers word cat).foldl raise (t.offers word cat)) := by
  unfold offers
  rw [all_merge, all.eq_def other]
  cases other.words[word]? with
  | none => exact List.Perm.refl _
  | some extra =>
    rw [Option.elim_some, Option.getD_some, ← scoresOf_foldl_addTag]
    exact ((sortTags_perm _).filter _).map _

theorem length_merge (t other : Supertags α) : (t.merge other).length = max t.length other.length := by
  have hwords (ours theirs : List (List (Tag α))) :
      (mergeWords ours theirs).length = max ours.length theirs.length := by
    fun_induction mergeWords ours theirs <;> simp_all
  exact hwords t.words other.words

/-- Among these scores, and none of them is higher. -/
structure Highest (x : α) (scores : List α) : Prop where
  mem : x ∈ scores
  le : ∀ y ∈ scores, Scalar.le y x = true

variable {S : α → Prop}

theorem highest_foldl_max (hS : Scalar.TotalOn S) {x : α} {ys : List α} (hx : S x) (hys : ∀ y ∈ ys, S y) :
    Highest (ys.foldl Scalar.max x) (x :: ys) := by
  have hrefl (z : α) (hz : S z) : Scalar.le z z = true := (hS.total z z hz hz).elim id id
  induction ys generalizing x with
  | nil => exact ⟨List.mem_cons_self, by simpa using hrefl x hx⟩
  | cons y ys ih =>
    obtain ⟨hy, hrest⟩ := List.forall_mem_cons.mp hys
    rw [List.foldl_cons, Scalar.max, hrefl x hx]
    cases hle : Scalar.le x y with
    | true =>
      obtain ⟨hmem, hmost⟩ := ih hy hrest
      refine ⟨List.mem_cons_of_mem _ hmem, List.forall_mem_cons.mpr ⟨?_, hmost⟩⟩
      exact hS.trans _ _ _ hle (hmost y List.mem_cons_self)
    | false =>
      obtain ⟨hmem, hmost⟩ := ih hx hrest
      obtain ⟨htop, hmost⟩ := List.forall_mem_cons.mp hmost
      have hyx : Scalar.le y x = true := (hS.total x y hx hy).resolve_left (by simp [hle])
      refine ⟨?_, List.forall_mem_cons.mpr ⟨htop, List.forall_mem_cons.mpr ⟨hS.trans _ _ _ hyx htop, hmost⟩⟩⟩
      rcases List.mem_cons.mp hmem with heq | hmem
      · exact List.mem_cons.mpr (.inl heq)
      · exact List.mem_cons_of_mem _ (List.mem_cons_of_mem _ hmem)

theorem exists_foldl_raise (hS : Scalar.TotalOn S) {xs ys : List α} (hxs : ∀ x ∈ xs, S x) (hys : ∀ y ∈ ys, S y)
    (hdescending : Categorial.Descending id xs) (hne : xs ++ ys ≠ []) :
    ∃ x, Highest x (xs ++ ys) ∧ ys.foldl raise xs = x :: xs.tail := by
  cases xs with
  | nil =>
    cases ys with
    | nil => exact absurd rfl hne
    | cons y ys =>
      obtain ⟨hy, hrest⟩ := List.forall_mem_cons.mp hys
      exact ⟨_, highest_foldl_max hS hy hrest, foldl_raise y [] ys⟩
  | cons x xs =>
    obtain ⟨hx, hrest⟩ := List.forall_mem_cons.mp hxs
    obtain ⟨hmem, hmost⟩ := highest_foldl_max hS hx hys
    refine ⟨_, ⟨?_, ?_⟩, foldl_raise x xs ys⟩
    · rcases List.mem_cons.mp hmem with heq | hmem
      · exact List.mem_cons.mpr (.inl heq)
      · exact List.mem_append_right _ hmem
    · obtain ⟨htop, hmost⟩ := List.forall_mem_cons.mp hmost
      refine List.forall_mem_cons.mpr ⟨htop, fun z hz => ?_⟩
      rcases List.mem_append.mp hz with hz | hz
      · exact hS.trans _ _ _ ((List.pairwise_cons.mp hdescending).1 z hz) htop
      · exact hmost z hz

end

end Supertags

end Categorial
