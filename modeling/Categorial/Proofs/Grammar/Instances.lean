import Categorial.Proofs.Grammar.Recorded
import Categorial.Proofs.Head.Side
set_option autoImplicit false

/-!
Which binary rules a built codebook has. They are steps that were seen and, with enumeration, all instances of the
schemas over pairs of its categories. The result of a schema is looked up by its text; since categories are proper,
what is found is the result itself.
-/

namespace Categorial

namespace GrammarBuilder

variable {b : GrammarBuilder} {gid : Nat} {g : Grammar}

theorem mem_enumerated_iff {key : BinaryKey} : key ∈ b.enumerated ↔ b.enumerate = true ∧ ∃ left right c,
    b.categories[key.left]? = some left ∧ b.categories[key.right]? = some right ∧ key.combinator ∈ b.combinators ∧
      key.combinator.result? left right = some c ∧ b.catIds[c.text]? = some key.result := by
  rw [enumerated]
  split
  · rename_i hon
    simp only [List.mem_flatMap, Prod.exists, mem_numbered_iff, schemaKeys, List.mem_filterMap,
      Option.map_eq_some_iff, Option.bind_eq_some_iff]
    constructor
    · rintro ⟨x, left, hleft, y, right, hright, combinator, hmem, result, ⟨c, hc, hid⟩, rfl⟩
      exact ⟨hon, left, right, c, hleft, hright, hmem, hc, hid⟩
    · rintro ⟨-, left, right, c, hleft, hright, hmem, hc, hid⟩
      exact ⟨_, left, hleft, _, right, hright, _, hmem, _, ⟨c, hc, hid⟩, rfl⟩
  · rename_i hoff
    simp [hoff]

/-- A binary rule that was not merely seen is an instance of its schema. -/
def Derives (b : GrammarBuilder) (key : BinaryKey) : Prop :=
  ∃ left right result, b.categories[key.left]? = some left ∧ b.categories[key.right]? = some right ∧
    b.categories[key.result]? = some result ∧
      (key.combinator ≠ .observed → key.combinator.result? left right = some result)

theorem derives_of_mem_enumerated (hb : b.Coherent) {key : BinaryKey} (h : key ∈ b.enumerated) : b.Derives key := by
  obtain ⟨-, left, right, c, hleft, hright, -, hc, hid⟩ := mem_enumerated_iff.mp h
  have hproper : c.Proper := Category.proper_result? (hb.proper left (Array.mem_of_getElem? hleft))
    (hb.proper right (Array.mem_of_getElem? hright)) hc
  exact ⟨left, right, c, hleft, hright, (hb.catIds_eq_some_iff hproper).mp hid, fun _ => hc⟩

theorem derives_explain {key : BinaryKey} {p : LocalTree Category} (h : key.localTree.lookup b.categories = some p) :
    b.Derives (b.explain key) := by
  simp only [LocalTree.lookup, BinaryKey.localTree, LocalTree.rename, Option.bind_eq_some_iff,
    Option.map_eq_some_iff] at h
  obtain ⟨left, hleft, right, hright, result, hresult, -⟩ := h
  obtain ⟨hl, hr, hc⟩ := b.explain_children key
  refine ⟨left, right, result, hl ▸ hleft, hr ▸ hright, hc ▸ hresult, ?_⟩
  simp only [explain, hleft, hright, hresult]
  cases hfind : b.combinators.find? fun c => c.result? left right == some result with
  | none => exact fun hne => absurd rfl hne
  | some c =>
    have hfound := List.find?_some hfind
    exact fun _ => eq_of_beq hfound

theorem derives_of_mem_binaryRules (hb : b.Coherent) {e : BinaryKey × Nat} (h : e ∈ b.binaryRules.entries) :
    b.Derives e.1 := by
  obtain hmem | ⟨e', he', hkey⟩ := key_of_mem_binaryRules h
  · exact derives_of_mem_enumerated hb hmem
  · obtain ⟨p, hp⟩ := hb.binaries e' he'
    exact hkey ▸ derives_explain hp

theorem known_of_mem_unaryRules (hb : b.Coherent) {e : UnaryKey × Nat} (h : e ∈ b.unaryRules.entries) :
    ∃ p, e.1.localTree.lookup b.categories = some p := by
  obtain hmem | ⟨e', he', hkey⟩ := key_of_mem_unaryRules h
  · exact hb.declared _ hmem
  · exact hkey ▸ hb.unaries e' he'

theorem wellFormed_of_mem_unnumbered (hb : b.Coherent) {make : RuleId → Rule} (h : make ∈ b.unnumbered)
    (id : RuleId) : (make id).wellFormed b.categories.size = true := by
  have hlt {id : CatId} {c : Category} (hid : b.categories[id]? = some c) : id < b.categories.size :=
    (Array.getElem?_eq_some_iff.mp hid).1
  obtain ⟨c, n, hmem, rfl⟩ | ⟨key, n, hmem, rfl⟩ | ⟨key, n, hmem, rfl⟩ | ⟨c, n, hmem, rfl⟩ := mem_unnumbered h
  · obtain ⟨_, hp⟩ := hb.words _ hmem
    obtain ⟨_, hc, -⟩ := Option.map_eq_some_iff.mp hp
    simp [Rule.wellFormed, hlt hc]
  · obtain ⟨_, _, _, hleft, hright, hresult, -⟩ := derives_of_mem_binaryRules hb hmem
    rcases b.ruleType_eq_or key with htype | htype <;>
      simp [Rule.wellFormed, htype, RuleType.isBinary, hlt hleft, hlt hright, hlt hresult]
  · obtain ⟨_, hp⟩ := known_of_mem_unaryRules hb hmem
    obtain ⟨_, hchild, hp⟩ := Option.bind_eq_some_iff.mp hp
    obtain ⟨_, hresult, -⟩ := Option.map_eq_some_iff.mp hp
    simp [Rule.wellFormed, hlt hchild, hlt hresult]
  · obtain ⟨_, hp⟩ := hb.roots _ hmem
    obtain ⟨_, hc, -⟩ := Option.map_eq_some_iff.mp hp
    simp [Rule.wellFormed, hlt hc]

theorem mem_rules_iff {r : Rule} :
    r ∈ b.rules ↔ ∃ (make : RuleId → Rule) (id : RuleId), b.unnumbered[id]? = some make ∧ make id = r := by
  simp only [rules, List.mem_map, Prod.exists, List.mem_zipIdx_iff_getElem?]

theorem ids_rules (b : GrammarBuilder) : b.rules.map Rule.id = List.range' 0 b.rules.length := by
  have hid : ∀ e ∈ b.unnumbered.zipIdx, (e.1 e.2).id = e.2 := fun e he => by
    rw [numbered_of_mem_unnumbered (List.fst_mem_of_mem_zipIdx he)]
  rw [rules, List.map_map, List.length_map, List.length_zipIdx, ← List.zipIdx_map_snd 0 b.unnumbered]
  exact List.map_congr_left hid

theorem texts_nodup (hb : b.Coherent) : (b.categories.toList.map Category.text).Nodup := by
  rw [List.nodup_iff_getElem?_ne_getElem?]
  intro i j hlt hj heq
  rw [List.length_map] at hj
  simp only [List.getElem?_map, Array.getElem?_toList] at heq
  have hsome {k : CatId} (hk : k < b.categories.toList.length) : ∃ c, b.categories[k]? = some c :=
    ⟨_, Array.getElem?_eq_getElem hk⟩
  obtain ⟨c, hc⟩ := hsome (Nat.lt_trans hlt hj)
  obtain ⟨d, hd⟩ := hsome hj
  rw [hc, hd, Option.map_some, Option.map_some, Option.some.injEq] at heq
  have hid := (hb.ids.mpr ⟨c, hc, heq⟩).symm.trans (hb.ids.mpr ⟨d, hd, rfl⟩)
  exact absurd (Option.some.inj hid) (Nat.ne_of_lt hlt)

theorem build_ok_iff (hb : b.Made) (gid : Nat) : (∃ g, b.build gid = .ok g) ↔ b.start.entries ≠ [] := by
  constructor
  · rintro ⟨g, h⟩
    obtain ⟨_, -, -, hstart⟩ := Grammar.ofRules_eq_ok.mp (ofRules_of_build h)
    obtain ⟨c, hc⟩ := List.exists_mem_of_ne_nil _ hstart
    obtain ⟨r, hr, htype, -⟩ := ((Grammar.Obtained.built hb h).startsListed c).mp hc
    obtain ⟨id, hid⟩ := Array.mem_iff_getElem?.mp hr
    obtain ⟨make, hmake, rfl⟩ := unnumbered_of_rule? h hid
    obtain ⟨_, _, -, rfl⟩ | ⟨key, _, -, rfl⟩ | ⟨_, _, -, rfl⟩ | ⟨_, _, hmem, -⟩ :=
      mem_unnumbered (List.mem_of_getElem? hmake)
    · cases htype
    · rcases b.ruleType_eq_or key with hbinary | hbinary <;> cases hbinary.symm.trans htype
    · cases htype
    · exact List.ne_nil_of_mem hmem
  · intro hstart
    obtain ⟨⟨c, n⟩, hmem⟩ := List.exists_mem_of_ne_nil _ hstart
    have hmake : (fun id => ⟨id, .top, .top, c, .unary c, n⟩ : RuleId → Rule) ∈ b.unnumbered := by
      simp only [unnumbered, List.mem_append, List.mem_map]
      exact .inr ⟨(c, n), hmem, rfl⟩
    obtain ⟨id, hid⟩ := List.mem_iff_getElem?.mp hmake
    obtain ⟨g, hg⟩ := Grammar.exists_ofRules gid b.codebookMarkups (texts_nodup hb.coherent) b.ids_rules
      (fun r hr => by
        obtain ⟨make, id, hmake, rfl⟩ := mem_rules_iff.mp hr
        exact wellFormed_of_mem_unnumbered hb.coherent (List.mem_of_getElem? hmake) id)
      ⟨_, mem_rules_iff.mpr ⟨_, id, hid, rfl⟩, rfl⟩
    exact ⟨g, except_mapError_eq_ok.mpr hg⟩

theorem derives_of_mem_rules (hb : b.Coherent) {r : Rule} (hr : r ∈ b.rules) {x y : CatId}
    (hproduction : r.production = .binary x y) : b.Derives ⟨x, y, r.combinator, r.result⟩ := by
  obtain ⟨make, id, hmake, rfl⟩ := mem_rules_iff.mp hr
  obtain ⟨_, _, -, rfl⟩ | ⟨key, n, hmem, rfl⟩ | ⟨_, _, -, rfl⟩ | ⟨_, _, -, rfl⟩ :=
    mem_unnumbered (List.mem_of_getElem? hmake)
  · cases hproduction
  · cases hproduction
    exact derives_of_mem_binaryRules hb hmem
  · cases hproduction
  · cases hproduction

theorem exists_rule_of_mem_enumerated (h : b.build gid = .ok g) (hcount : b.minCount = 0) {key : BinaryKey}
    (hkey : key ∈ b.enumerated) :
    ∃ r ∈ g.rules, r.combinator = key.combinator ∧ r.production = .binary key.left key.right ∧
      r.result = key.result := by
  have hstart : Tally.Has ⟨b.enumerated.map fun key => (key, 0)⟩ key := ⟨0, List.mem_map.mpr ⟨key, hkey, rfl⟩⟩
  obtain ⟨n, hmem⟩ : b.binaryRules.Has key :=
    hstart.foldl_alter (fun e : BinaryKey × Nat => b.explain e.1) fun e o => (o.getD 0 + e.2) % UInt32.size
  have hmake : (fun id => ⟨id, b.ruleType key, key.combinator, key.result, .binary key.left key.right, n⟩ :
      RuleId → Rule) ∈ b.unnumbered := by
    simp only [unnumbered, List.mem_append, List.mem_map]
    exact .inl (.inl (.inr ⟨(key, n), List.mem_filter.mpr ⟨hmem, by simp [hcount]⟩, rfl⟩))
  obtain ⟨id, hid⟩ := exists_rule h hmake
  exact ⟨_, Array.mem_of_getElem? hid, rfl, rfl, rfl⟩

/-- A codebook has the categories of its builder, whose trees were read from lines, and no two rules agree in
combinator, result and production. A binary rule is an instance of its schema, unless it was only seen, and gets its
head from the side that its schema says. With enumeration, and if no count is asked for, every instance over the
categories is a rule. -/
theorem codebook_of_build (hb : b.Made) (gid : Nat) :
    ((∃ g, b.build gid = .ok g) ↔ b.start.entries ≠ []) ∧ ∀ g, b.build gid = .ok g →
      g.categories = b.categories ∧
      (∀ i j r s, g.rule? i = some r → g.rule? j = some s → r.combinator = s.combinator → r.result = s.result →
        r.production = s.production → i = j) ∧
      (∀ r ∈ g.rules, ∀ x y, r.production = .binary x y → ∃ left right result, g.category? x = some left ∧
        g.category? y = some right ∧ g.category? r.result = some result ∧
        r.ruleType = .ofHeadSide (b.headSide r.combinator left right) ∧
        (r.combinator ≠ .observed → r.combinator.result? left right = some result)) ∧
      (b.enumerate = true → b.minCount = 0 → ∀ x y z left right result, g.category? x = some left →
        g.category? y = some right → g.category? z = some result → ∀ k ∈ b.combinators,
          k.result? left right = some result →
            ∃ r ∈ g.rules, r.combinator = k ∧ r.production = .binary x y ∧ r.result = z) := by
  refine ⟨build_ok_iff hb gid, fun g h => ?_⟩
  obtain ⟨_, -, ⟨hcategories, -, -, -, -⟩, hrules⟩ := Grammar.contents_ofRules (ofRules_of_build h)
  have hcategory (id : CatId) : g.category? id = b.categories[id]? := by rw [Grammar.category?, hcategories]
  simp only [hcategory]
  refine ⟨hcategories, fun i j r s hr hs hcombinator hresult hproduction => ?_, fun r hr x y hproduction => ?_,
    fun hon hcount x y z left right result hleft hright hresult k hk hinstance => ?_⟩
  · exact rule_unique hb h hr hs (by simp [Rule.name, hcombinator, hresult, hproduction])
  · have hmem : r ∈ b.rules := hrules ▸ Array.mem_toList_iff.mpr hr
    obtain ⟨left, right, result, hleft, hright, hresult, hinstance⟩ :=
      derives_of_mem_rules hb.coherent hmem hproduction
    refine ⟨left, right, result, hleft, hright, hresult, ?_, hinstance⟩
    rw [ruleType_of_mem_rules hmem hproduction, ruleType]
    simp only [hleft, hright]
  · have hid : b.catIds[result.text]? = some z := hb.coherent.ids.mpr ⟨result, hresult, rfl⟩
    have hkey : ⟨x, y, k, z⟩ ∈ b.enumerated :=
      mem_enumerated_iff.mpr ⟨hon, left, right, result, hleft, hright, hk, hinstance, hid⟩
    exact exists_rule_of_mem_enumerated h hcount hkey

end GrammarBuilder

namespace Observed

open GrammarBuilder

/-- With enumeration the step of the tree is found as an instance of its schema, on top of which it was counted. -/
theorem codebook_of_build_enumerated : Made (builder.setEnumerate true) ∧
    ∃ g, (builder.setEnumerate true).build 0 = .ok g ∧ g.categories = #[clause, np, verb] ∧
      (∃ r ∈ g.rules, r.combinator = .bwdApp ∧ r.production = .binary 1 2 ∧ r.result = 0) ∧
      ∀ r ∈ g.rules, r.production = .binary 1 2 → r.combinator ≠ .observed →
        r.combinator.result? np verb = g.category? r.result := by
  have hmade : Made (builder.setEnumerate true) := made_builder.setEnumerate true
  obtain ⟨hbuild, hrules⟩ := codebook_of_build hmade 0
  obtain ⟨g, hg⟩ := hbuild.mpr (List.cons_ne_nil _ _)
  obtain ⟨hcategories, -, hinstances, hcomplete⟩ := hrules g hg
  have hcategory (id : CatId) : g.category? id = #[clause, np, verb][id]? := by
    rw [Grammar.category?, hcategories]
    rfl
  refine ⟨hmade, g, hg, hcategories, ?_, fun r hr hproduction hcombinator => ?_⟩
  · exact hcomplete rfl rfl 1 2 0 np verb clause (hcategory 1) (hcategory 2) (hcategory 0) .bwdApp (by decide)
      (by decide)
  · obtain ⟨left, right, result, hleft, hright, hresult, -, hinstance⟩ := hinstances r hr 1 2 hproduction
    cases (hcategory 1).symm.trans hleft
    cases (hcategory 2).symm.trans hright
    rw [hresult]
    exact hinstance hcombinator

end Observed

end Categorial
