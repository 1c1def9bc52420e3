import Categorial.Proofs.Grammar.Obtained
set_option autoImplicit false

/-!
Categories of a codebook are found by their texts. A text that is looked up without being read is the one text that its
category is printed as, so it would be found under the same id by reading it; and all spellings of a category are read
as that category.
-/

namespace Categorial

theorem Category.Denotes.parenthesised {s : List Char} {c : Category} (h : Denotes .whole s c) (n : Nat) :
    Denotes .whole (List.replicate n '(' ++ s ++ List.replicate n ')') c := by
  induction n with
  | zero => simpa using h
  | succ n ih =>
    have hgroup := Denotes.single (.group 0 ih)
    have hlist : '(' :: (List.replicate n '(' ++ s ++ List.replicate n ')' ++ ')' :: marks 0) =
        List.replicate (n + 1) '(' ++ s ++ List.replicate (n + 1) ')' := by
      rw [List.replicate_succ, List.replicate_succ']
      simp [marks]
    rwa [hlist] at hgroup

namespace Grammar

variable {g : Grammar}

theorem Obtained.ofString?_of_catIds (hg : g.Obtained) {s : String} {id : CatId} (h : g.catIds[s]? = some id) :
    ∃ c, Category.ofString? s = .ok c ∧ g.catIdOf? c = some id := by
  obtain ⟨_, categories, _, _, hrules, hproper⟩ := hg.exists_ofRules
  obtain ⟨catIds, hids, hcontents, -⟩ := contents_ofRules hrules
  obtain ⟨-, -, hother, -⟩ := indexCategories_spec hids
  have hmem : s ∈ categories.toList.map Category.text := by
    by_contra hnot
    rw [hcontents.catIds_eq, hother _ hnot, Std.HashMap.getElem?_empty] at h
    cases h
  obtain ⟨c, hc, rfl⟩ := List.mem_map.mp hmem
  exact ⟨c, Category.ofString?_text (hproper c (Array.mem_toList_iff.mp hc)), h⟩

theorem Obtained.catId?_eq (hg : g.Obtained) (s : String) :
    g.catId? s = (Category.ofString? s).toOption.bind g.catIdOf? := by
  unfold catId?
  split
  · rename_i id hknown
    obtain ⟨c, hread, hid⟩ := hg.ofString?_of_catIds hknown
    rw [hread]
    exact hid.symm
  · rfl

theorem Obtained.catId?_of_ofString? (hg : g.Obtained) {s : String} {c : Category}
    (h : Category.ofString? s = .ok c) : g.catId? s = g.catIdOf? c := by
  rw [hg.catId?_eq, h]
  rfl

theorem Obtained.catId?_eq_some_iff (hg : g.Obtained) {s : String} {id : CatId} :
    g.catId? s = some id ↔ ∃ c, Category.ofString? s = .ok c ∧ g.category? id = some c := by
  rw [hg.catId?_eq]
  cases hread : Category.ofString? s with
  | error e => simp [Except.toOption]
  | ok c =>
    have hproper : c.Proper := Category.proper_of_read hread
    simpa [Except.toOption] using hg.catIdOf?_eq_some_iff hproper

/-- All spellings of a category find the id under which it stands, with any parentheses and blanks around it, and no
other text finds an id. Looking a text up without reading it makes no difference. The codebook was loaded, or built
from trees as they are read from lines. -/
theorem Obtained.finds_spellings (hg : g.Obtained) :
    (∀ s id, g.catId? s = some id ↔ ∃ c, Category.ofString? s = .ok c ∧ g.category? id = some c) ∧
      (∀ s t c, Category.ofString? s = .ok c → Category.ofString? t = .ok c → g.catId? s = g.catId? t) ∧
      (∀ before t after c n, Text.Gap before → Text.Gap after → Category.Denotes .whole t c →
        g.catId? (String.ofList (before ++ (List.replicate n '(' ++ t ++ List.replicate n ')') ++ after)) =
          g.catIdOf? c) ∧
      (∀ s id, g.catIds[s]? = some id → (Category.ofString? s).toOption.bind g.catIdOf? = some id) ∧
      ∀ id, id < g.size → g.catId? (g.catText id) = some id := by
  refine ⟨fun _ _ => hg.catId?_eq_some_iff, fun s t c hs ht => ?_, fun before t after c n hbefore hafter ht => ?_,
    fun s id hknown => ?_, fun id hid => ?_⟩
  · rw [hg.catId?_of_ofString? hs, hg.catId?_of_ofString? ht]
  · refine hg.catId?_of_ofString? ((Category.ofString?_ok_iff _ _).mpr ?_)
    exact ⟨before, _, after, by rw [String.toList_ofList], hbefore, hafter, ht.parenthesised n⟩
  · obtain ⟨c, hread, hc⟩ := hg.ofString?_of_catIds hknown
    rw [hread]
    exact hc
  · obtain ⟨c, hc, hproper, htext⟩ := hg.readable.exists_category hid
    rw [htext, hg.catId?_of_ofString? (Category.ofString?_text hproper)]
    exact hg.readable.ids id c hc

end Grammar

namespace Observed

/-- In the codebook of one tree the noun phrase is found in two pairs of parentheses with blanks around them, and not
where one of them is left open. -/
theorem finds_spellings_builder : ∃ g : Grammar, g.Obtained ∧ g.catId? " ((NP))\n" = some 1 ∧
    g.catId? "((NP)" = none := by
  obtain ⟨g, hbuild, -⟩ := exists_build
  have hg : g.Obtained := .built made_builder hbuild
  obtain ⟨-, -, ⟨hcategories, -, -, -, -⟩, -⟩ := Grammar.contents_ofRules (GrammarBuilder.ofRules_of_build hbuild)
  have hnp : g.category? 1 = some np := by
    rw [Grammar.category?, hcategories]
    rfl
  have hread : Category.ofString? " ((NP))\n" = .ok np := by decide
  have hopen : (Category.ofString? "((NP)").toOption = none := by decide
  obtain ⟨hiff, -⟩ := hg.finds_spellings
  refine ⟨g, hg, (hiff _ _).mpr ⟨np, hread, hnp⟩, Option.eq_none_iff_forall_ne_some.mpr fun id hid => ?_⟩
  obtain ⟨c, hc, -⟩ := (hiff _ _).mp hid
  rw [hc] at hopen
  cases hopen

end Observed

end Categorial
