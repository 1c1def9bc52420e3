import Categorial.Grammar.Files
import Categorial.Proofs.Codebook
import Mathlib.Data.List.Induction
set_option autoImplicit false

namespace Categorial

/-- The rule consumes what its type says, and its categories are among the first so many. -/
def Rule.wellFormed (size : Nat) (r : Rule) : Bool :=
  decide (r.result < size) && match r.ruleType, r.production with
    | .lexical, .terminal => true
    | .top, .unary c => decide (c < size)
    | .unary, .unary c => decide (c < size)
    | t, .binary left right => t.isBinary && decide (left < size) && decide (right < size)
    | _, _ => false

namespace Grammar

/-- The same codebook under another instance number. -/
def renamed (g : Grammar) (id : Nat) : Grammar := { g with id := id }

theorem inRange_eq_ok {g : Grammar} {c : CatId} : g.inRange c = .ok () ↔ c < g.size := by
  unfold inRange
  split
  · rename_i h
    simp [h]
  · rename_i h
    simp [h]

theorem addRule_inRange {g g' : Grammar} {r : Rule} (h : g.addRule r = .ok g') :
    r.result < g.size ∧ ∀ c, r.production.left? = some c ∨ r.production.right? = some c → c < g.size := by
  unfold addRule at h
  by_cases hid : r.id = g.rules.size
  · simp only [hid, ne_eq, not_true_eq_false, if_false] at h
    obtain ⟨_, hresult, h⟩ := except_bind_eq_ok.mp h
    refine ⟨inRange_eq_ok.mp hresult, ?_⟩
    split at h
    · rename_i hp
      simp [hp, Production.left?, Production.right?]
    · rename_i c _ hp
      obtain ⟨_, hc, _⟩ := except_bind_eq_ok.mp h
      simpa [hp, Production.left?, Production.right?] using inRange_eq_ok.mp hc
    · rename_i c _ hp
      obtain ⟨_, hc, _⟩ := except_bind_eq_ok.mp h
      simpa [hp, Production.left?, Production.right?] using inRange_eq_ok.mp hc
    · rename_i left right hp
      split at h
      · obtain ⟨_, hl, h⟩ := except_bind_eq_ok.mp h
        obtain ⟨_, hr, _⟩ := except_bind_eq_ok.mp h
        intro c hc
        simp only [hp, Production.left?, Production.right?, Option.some.injEq] at hc
        rcases hc with rfl | rfl
        · exact inRange_eq_ok.mp hl
        · exact inRange_eq_ok.mp hr
      · cases h
    · cases h
  · simp [hid, bind, Except.bind] at h

theorem addRule_renamed (g : Grammar) (id : Nat) (r : Rule) :
    (g.renamed id).addRule r = (g.addRule r).map fun g' => g'.renamed id := by
  have hrange (c : CatId) : (g.renamed id).inRange c = g.inRange c := rfl
  have hrules : (g.renamed id).rules = g.rules := rfl
  obtain ⟨rid, kind, combinator, result, production, count⟩ := r
  simp only [addRule, hrange, hrules, bind, Except.bind, pure, Except.pure]
  by_cases hid : rid = g.rules.size
  · simp only [hid, ne_eq, not_true_eq_false, if_false]
    cases g.inRange result with
    | error e => rfl
    | ok _ =>
      cases production with
      | terminal => cases kind <;> rfl
      | unary c => cases hc : g.inRange c <;> cases kind <;> simp [hc, Except.map, renamed]
      | binary left right =>
        cases hl : g.inRange left <;> cases hr : g.inRange right <;> cases kind <;>
          simp [hl, hr, Except.map, renamed, RuleType.isBinary]
  · simp [hid, Except.map]

theorem foldlM_addRule_renamed (id : Nat) (rules : List Rule) : ∀ {g g' : Grammar},
    rules.foldlM addRule g = .ok g' → rules.foldlM addRule (g.renamed id) = .ok (g'.renamed id) := by
  induction rules with
  | nil =>
    intro g g' h
    cases h
    rfl
  | cons r rules ih =>
    intro g g' h
    rw [List.foldlM_cons] at h ⊢
    obtain ⟨next, hnext, hrest⟩ := except_bind_eq_ok.mp h
    rw [addRule_renamed, hnext]
    exact ih hrest

theorem ofRules_renamed {id : Nat} {categories : Array Category} {rules : List Rule}
    {markups : List (CatId × Markup)} {g : Grammar} (h : ofRules id categories rules markups = .ok g)
    (id' : Nat) : ofRules id' categories rules markups = .ok (g.renamed id') := by
  obtain ⟨catIds, hids, hfold, hstart⟩ := ofRules_eq_ok.mp h
  exact ofRules_eq_ok.mpr ⟨catIds, hids, foldlM_addRule_renamed id' rules hfold, hstart⟩

/-- What holds while rules are added: the rest stays, and what is added is in range. -/
structure Contents (categories : Array Category) (catIds : Std.HashMap String CatId)
    (markups : List (CatId × Markup)) (g : Grammar) : Prop where
  categories_eq : g.categories = categories
  catIds_eq : g.catIds = catIds
  markups_eq : g.markups = markups
  start : ∀ c ∈ g.start, c < g.size ∧ g.isStart c = true
  rules : ∀ r ∈ g.rules, r.result < g.size ∧
    ∀ c, r.production.left? = some c ∨ r.production.right? = some c → c < g.size

theorem contents_ofCategories (id : Nat) (categories : Array Category)
    (catIds : Std.HashMap String CatId) (markups : List (CatId × Markup)) :
    Contents categories catIds markups (ofCategories id categories catIds markups) :=
  ⟨rfl, rfl, rfl, by simp [ofCategories], by simp [ofCategories]⟩

theorem contents_addRule {categories : Array Category} {catIds : Std.HashMap String CatId}
    {markups : List (CatId × Markup)} {g g' : Grammar} {r : Rule}
    (hg : Contents categories catIds markups g) (h : g.addRule r = .ok g') :
    Contents categories catIds markups g' := by
  have hinRange := addRule_inRange h
  have hrules := addRule_rules h
  obtain ⟨hcategories, hids, hmarkups, hstart, hold⟩ := hg
  have hnew : ∀ r' ∈ g'.rules, r'.result < g.size ∧
      ∀ c, r'.production.left? = some c ∨ r'.production.right? = some c → c < g.size := by
    intro r' hr'
    rw [hrules, Array.mem_push] at hr'
    rcases hr' with hmem | rfl
    · exact hold r' hmem
    · exact hinRange
  obtain ⟨_, ⟨_, _, rfl⟩ | ⟨c, _, hp, rfl⟩ | ⟨_, _, _, rfl⟩ | ⟨_, _, _, _, rfl⟩⟩ := addRule_cases h
  · exact ⟨hcategories, hids, hmarkups, hstart, hnew⟩
  · refine ⟨hcategories, hids, hmarkups, fun d hd => ?_, hnew⟩
    rcases List.mem_append.mp hd with hmem | hlast
    · obtain ⟨hlt, hisStart⟩ := hstart d hmem
      refine ⟨hlt, ?_⟩
      simp only [isStart, topRule?, Std.HashMap.getElem?_insert] at hisStart ⊢
      split
      · rfl
      · exact hisStart
    · obtain rfl := List.mem_singleton.mp hlast
      exact ⟨hinRange.2 d (.inl (by simp [hp, Production.left?])), by simp [isStart, topRule?]⟩
  · exact ⟨hcategories, hids, hmarkups, hstart, hnew⟩
  · exact ⟨hcategories, hids, hmarkups, hstart, hnew⟩

theorem foldlM_addRule_rules {rules : List Rule} : ∀ {g g' : Grammar},
    rules.foldlM addRule g = .ok g' → g'.rules.toList = g.rules.toList ++ rules := by
  induction rules with
  | nil =>
    intro g g' h
    cases h
    simp
  | cons r rules ih =>
    intro g g' h
    rw [List.foldlM_cons] at h
    obtain ⟨next, hnext, hrest⟩ := except_bind_eq_ok.mp h
    rw [ih hrest, addRule_rules hnext]
    simp

theorem contents_ofRules {id : Nat} {categories : Array Category} {rules : List Rule}
    {markups : List (CatId × Markup)} {g : Grammar} (h : ofRules id categories rules markups = .ok g) :
    ∃ catIds, indexCategories 0 ∅ categories.toList = .ok catIds ∧
      Contents categories catIds markups g ∧ g.rules.toList = rules := by
  obtain ⟨catIds, hids, hfold, -⟩ := ofRules_eq_ok.mp h
  exact ⟨catIds, hids, foldlM_ok_induction (fun _ _ _ hs hstep => contents_addRule hs hstep) hfold
    (contents_ofCategories id categories catIds markups), foldlM_addRule_rules hfold⟩

theorem exists_addRule {g : Grammar} {r : Rule} (hid : r.id = g.rules.size)
    (hr : r.wellFormed g.size = true) : ∃ g', g.addRule r = .ok g' := by
  obtain ⟨rid, kind, combinator, result, production, count⟩ := r
  simp only [Rule.wellFormed, Bool.and_eq_true, decide_eq_true_eq] at hid hr
  obtain ⟨hresult, hr⟩ := hr
  have hin := inRange_eq_ok.mpr hresult
  cases production with
  | terminal => cases kind <;> simp [addRule, hid, hin, bind, Except.bind] at hr ⊢
  | unary c =>
    cases kind <;> simp only [Bool.false_eq_true, decide_eq_true_eq] at hr
    all_goals simp [addRule, hid, hin, inRange_eq_ok.mpr hr, bind, Except.bind]
  | binary left right =>
    cases kind <;> simp [RuleType.isBinary] at hr
    all_goals simp [addRule, hid, hin, inRange_eq_ok.mpr hr.1, inRange_eq_ok.mpr hr.2, bind, Except.bind,
      RuleType.isBinary]

theorem exists_foldlM_addRule {rules : List Rule} : ∀ {g : Grammar},
    rules.map Rule.id = List.range' g.rules.size rules.length →
    (∀ r ∈ rules, r.wellFormed g.size = true) → (g.start ≠ [] ∨ ∃ r ∈ rules, r.ruleType = .top) →
    ∃ g', rules.foldlM addRule g = .ok g' ∧ g'.start ≠ [] := by
  induction rules with
  | nil =>
    intro g _ _ htop
    exact ⟨g, rfl, by simpa using htop⟩
  | cons r rules ih =>
    intro g hids hrules htop
    rw [List.map_cons, List.length_cons, List.range'_succ, List.cons.injEq] at hids
    obtain ⟨g', hg'⟩ := exists_addRule hids.1 (hrules r List.mem_cons_self)
    obtain ⟨_, hcases⟩ := addRule_cases hg'
    have hsize : g'.size = g.size ∧ (g'.start ≠ [] ∨ ∃ r ∈ rules, r.ruleType = .top) := by
      have hrest : r.ruleType ≠ .top → g.start ≠ [] ∨ ∃ r ∈ rules, r.ruleType = .top := by
        intro hne
        simpa [hne] using htop
      obtain ⟨ht, _, rfl⟩ | ⟨_, _, _, rfl⟩ | ⟨_, ht, _, rfl⟩ | ⟨_, _, ht, _, rfl⟩ := hcases
      · exact ⟨rfl, hrest (by simp [ht])⟩
      · exact ⟨rfl, .inl (by simp)⟩
      · exact ⟨rfl, hrest (by simp [ht])⟩
      · refine ⟨rfl, hrest ?_⟩
        rintro heq
        simp [heq, RuleType.isBinary] at ht
    rw [List.foldlM_cons, hg']
    refine ih ?_ (fun r' hr' => ?_) hsize.2
    · rw [addRule_rules hg', Array.size_push]
      exact hids.2
    · rw [hsize.1]
      exact hrules r' (List.mem_cons_of_mem _ hr')

/-- Categories with different texts and well-formed rules that are numbered by their positions make a codebook,
if one of them is a top rule. -/
theorem exists_ofRules (id : Nat) {categories : Array Category} {rules : List Rule}
    (markups : List (CatId × Markup)) (htexts : (categories.toList.map Category.text).Nodup)
    (hids : rules.map Rule.id = List.range' 0 rules.length)
    (hrules : ∀ r ∈ rules, r.wellFormed categories.size = true) (htop : ∃ r ∈ rules, r.ruleType = .top) :
    ∃ g, ofRules id categories rules markups = .ok g := by
  obtain ⟨catIds, hcatIds⟩ : ∃ catIds, indexCategories 0 ∅ categories.toList = .ok catIds :=
    indexCategories_ok (by simp) htexts
  obtain ⟨g, hg, hstart⟩ := exists_foldlM_addRule (g := ofCategories id categories catIds markups) hids hrules
    (.inr htop)
  exact ⟨g, ofRules_eq_ok.mpr ⟨catIds, hcatIds, hg, hstart⟩⟩

theorem indexCategories_spec {categories : List Category} : ∀ {next : CatId}
    {known catIds : Std.HashMap String CatId}, indexCategories next known categories = .ok catIds →
    (∀ c ∈ categories, c.text ∉ known) ∧ (categories.map Category.text).Nodup ∧
      (∀ t, t ∉ categories.map Category.text → catIds[t]? = known[t]?) ∧
      ∀ i c, categories[i]? = some c → catIds[c.text]? = some (next + i) := by
  induction categories with
  | nil =>
    intro next known catIds h
    cases h
    simp
  | cons c categories ih =>
    intro next known catIds h
    rw [indexCategories] at h
    cases hknown : known.contains c.text with
    | true => simp [hknown] at h
    | false =>
      simp only [hknown, Bool.false_eq_true, if_false] at h
      obtain ⟨hnew, hnodup, hother, hpos⟩ := ih h
      have hfresh : c.text ∉ categories.map Category.text := by
        intro hmem
        obtain ⟨d, hd, htext⟩ := List.mem_map.mp hmem
        exact hnew d hd (by simp [htext])
      refine ⟨fun d hd => ?_, List.nodup_cons.mpr ⟨hfresh, hnodup⟩, fun t ht => ?_, fun i d hi => ?_⟩
      · rcases List.mem_cons.mp hd with rfl | hmem
        · simpa using hknown
        · exact fun hin => hnew d hmem (Std.HashMap.mem_insert.mpr (.inr hin))
      · obtain ⟨hne, hrest⟩ := not_or.mp (mt List.mem_cons.mpr ht)
        rw [hother t hrest, Std.HashMap.getElem?_insert, if_neg (by simpa using fun heq => hne heq.symm)]
      · cases i with
        | zero =>
          cases hi
          rw [hother _ hfresh, Std.HashMap.getElem?_insert_self]
          rfl
        | succ i =>
          rw [hpos i d (by simpa using hi)]
          exact congrArg some (Nat.succ_add_eq_add_succ next i)

theorem catIdOf?_ofRules {id : Nat} {categories : Array Category} {rules : List Rule}
    {markups : List (CatId × Markup)} {g : Grammar} (h : ofRules id categories rules markups = .ok g) {i : Nat}
    {c : Category} (hc : categories[i]? = some c) : g.catIdOf? c = some i := by
  obtain ⟨catIds, hids, hcontents, _⟩ := contents_ofRules h
  obtain ⟨_, _, _, hget⟩ := indexCategories_spec hids
  rw [catIdOf?, hcontents.catIds_eq, hget i c, Nat.zero_add]
  rw [Array.getElem?_toList]
  exact hc

theorem getElem?_foldl_insert {entries : List (Category × CatId)} : ∀ {known : Std.HashMap String CatId},
    (entries.map fun e => e.1.text).Nodup → ∀ e ∈ entries,
      (entries.foldl (fun known (c, id) => known.insert c.text id) known)[e.1.text]? = some e.2 := by
  induction entries using List.reverseRecOn with
  | nil => simp
  | append_singleton entries last ih =>
    intro known hnodup e he
    rw [List.map_append, List.nodup_append] at hnodup
    obtain ⟨hfirst, _, hne⟩ := hnodup
    rw [List.foldl_append, List.foldl_cons, List.foldl_nil, Std.HashMap.getElem?_insert]
    rcases List.mem_append.mp he with hmem | hlast
    · -- the last text is another one, so it does not hide this entry
      have htext : last.1.text ≠ e.1.text := fun heq =>
        hne _ (List.mem_map.mpr ⟨e, hmem, rfl⟩) _ (by simp) heq.symm
      rw [if_neg (by simpa using htext)]
      exact ih hfirst e hmem
    · obtain rfl := List.mem_singleton.mp hlast
      simp

theorem getElem?_positions {categories : List Category} (hnodup : (categories.map Category.text).Nodup)
    {i : Nat} {c : Category} (h : categories[i]? = some c) :
    (positions categories)[c.text]? = some i := by
  have htexts : (categories.zipIdx.map fun e => e.1.text) = categories.map Category.text := by
    have hcomp : (fun e : Category × Nat => e.1.text) = Category.text ∘ Prod.fst := rfl
    rw [hcomp, ← List.map_map, List.zipIdx_map_fst]
  exact getElem?_foldl_insert (htexts ▸ hnodup) (c, i) (List.mk_mem_zipIdx_iff_getElem?.mpr h)

end Grammar

end Categorial
