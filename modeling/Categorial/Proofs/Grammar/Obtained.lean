import Categorial.Proofs.Category.Formed
import Categorial.Proofs.Grammar.RoundTrip
set_option autoImplicit false

namespace Categorial

theorem Category.Proper.eq_of_text {c c' : Category} (hc : c.Proper) (hc' : c'.Proper) (h : c.text = c'.text) :
    c = c' :=
  Except.ok.inj ((ofString?_text hc).symm.trans (h ▸ ofString?_text hc'))

namespace Grammar

/-- A codebook is built, or loaded from its files. -/
inductive Obtained : Grammar → Prop
  | built {b : GrammarBuilder} {gid : Nat} {g : Grammar} : b.Made → b.build gid = .ok g → Obtained g
  | loaded {gid : Nat} {dir : String} {files : CodebookFiles (Option (List Text.Line))} {g : Grammar} :
      load gid dir files = .ok g → Obtained g

theorem proper_of_readCategoryLine {path : String} {position : Nat} {line : List Char} {c : Category}
    (h : readCategoryLine path position line = .ok c) : c.Proper := by
  unfold readCategoryLine at h
  split at h
  · split at h
    · exact Category.proper_of_read (except_mapError_eq_ok.mp h)
    · cases h
  · cases h

theorem Obtained.exists_ofRules {g : Grammar} (hg : g.Obtained) : ∃ gid categories rules markups,
    ofRules gid categories rules markups = .ok g ∧ ∀ c ∈ categories, c.Proper := by
  cases hg with
  | built hb hbuild => exact ⟨_, _, _, _, GrammarBuilder.ofRules_of_build hbuild, hb.proper⟩
  | loaded hload =>
    unfold load at hload
    obtain ⟨lines, -, hload⟩ := except_bind_eq_ok.mp hload
    obtain ⟨categories, hcategories, hload⟩ := except_bind_eq_ok.mp hload
    obtain ⟨_, -, hload⟩ := except_bind_eq_ok.mp hload
    obtain ⟨rules, -, hload⟩ := except_bind_eq_ok.mp hload
    obtain ⟨_, -, hload⟩ := except_bind_eq_ok.mp hload
    obtain ⟨_, -, hload⟩ := except_bind_eq_ok.mp hload
    obtain ⟨g', hrules, hload⟩ := except_bind_eq_ok.mp hload
    obtain ⟨_, -, hload⟩ := except_bind_eq_ok.mp hload
    obtain ⟨_, -, hload⟩ := except_bind_eq_ok.mp hload
    cases hload
    refine ⟨_, _, _, _, except_mapError_eq_ok.mp hrules, fun c hc => ?_⟩
    obtain ⟨⟨line, i⟩, -, hline⟩ := exists_of_mem_mapM hcategories (by simpa using hc)
    exact proper_of_readCategoryLine hline

theorem Obtained.indexed {g : Grammar} (hg : g.Obtained) : g.Indexed := by
  obtain ⟨_, _, _, _, hrules, -⟩ := hg.exists_ofRules
  exact indexed_ofRules hrules

theorem Obtained.readable {g : Grammar} (hg : g.Obtained) : g.Readable := by
  obtain ⟨_, _, _, _, hrules, hproper⟩ := hg.exists_ofRules
  exact readable_ofRules hrules hproper

theorem Obtained.catIdOf?_eq_some_iff {g : Grammar} (hg : g.Obtained) {c : Category} (hc : c.Proper) {id : CatId} :
    g.catIdOf? c = some id ↔ g.category? id = some c := by
  obtain ⟨_, categories, _, _, hrules, hproper⟩ := hg.exists_ofRules
  obtain ⟨catIds, hids, hcontents, -⟩ := contents_ofRules hrules
  obtain ⟨-, -, hother, -⟩ := indexCategories_spec hids
  refine ⟨fun hfound => ?_, hg.readable.ids id c⟩
  have hmem : c.text ∈ categories.toList.map Category.text := by
    by_contra hnot
    rw [catIdOf?, hcontents.catIds_eq, hother _ hnot] at hfound
    cases Std.HashMap.getElem?_empty.symm.trans hfound
  obtain ⟨c', hc', htext⟩ := List.mem_map.mp hmem
  obtain rfl : c' = c := (hproper c' (Array.mem_toList_iff.mp hc')).eq_of_text hc htext
  obtain ⟨i, hi⟩ := List.mem_iff_getElem?.mp hc'
  have hposition : g.category? i = some c' := by
    rw [category?, hcontents.categories_eq, ← Array.getElem?_toList, hi]
  cases (hg.readable.ids i c' hposition).symm.trans hfound
  exact hposition

/-- The start categories are those with a top rule. -/
def StartsListed (g : Grammar) : Prop :=
  ∀ c, c ∈ g.start ↔ ∃ r ∈ g.rules, r.ruleType = .top ∧ r.production = .unary c

theorem startsListed_addRule {g g' : Grammar} {r : Rule} (hg : g.StartsListed) (h : g.addRule r = .ok g') :
    g'.StartsListed := by
  intro c
  have hpush : (∃ r' ∈ g'.rules, r'.ruleType = .top ∧ r'.production = .unary c) ↔
      c ∈ g.start ∨ r.ruleType = .top ∧ r.production = .unary c := by
    rw [addRule_rules h, hg c]
    simp only [Array.mem_push]
    grind
  rw [hpush]
  obtain ⟨-, ⟨ht, _, rfl⟩ | ⟨d, ht, hp, rfl⟩ | ⟨_, ht, _, rfl⟩ | ⟨_, _, ht, hp, rfl⟩⟩ := addRule_cases h
  · simp [ht]
  · simp [ht, hp, eq_comm]
  · simp [ht]
  · simp [hp]

theorem Obtained.startsListed {g : Grammar} (hg : g.Obtained) : g.StartsListed := by
  obtain ⟨gid, categories, rules, markups, hrules, -⟩ := hg.exists_ofRules
  obtain ⟨catIds, -, hfold, -⟩ := ofRules_eq_ok.mp hrules
  exact foldlM_ok_induction (fun _ _ _ hs hstep => startsListed_addRule hs hstep) hfold
    (by simp [StartsListed, ofCategories])

theorem Obtained.isStart_iff {g : Grammar} (hg : g.Obtained) {c : CatId} : g.isStart c = true ↔ c ∈ g.start := by
  rw [isStart, hg.indexed.topRule?, isSome_getLast?_idsWhere, hg.startsListed c]
  simp [topFor]

end Grammar

end Categorial
