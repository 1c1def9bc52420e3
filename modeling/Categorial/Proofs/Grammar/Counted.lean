import Categorial.Proofs.Grammar.Instances
import Mathlib.Algebra.BigOperators.Group.List.Lemmas
import Mathlib.Algebra.Order.BigOperators.Group.List
import Mathlib.Algebra.Order.Group.Nat
set_option autoImplicit false

/-!
The counts of a built codebook. Steps are counted by their children and their result, and get their schemas when the
codebook is built; rules that come from elsewhere start from zero. So summed over the schemas, the counts are those
of the trees, and rules that are asked to be frequent are chosen by just these counts.
-/

namespace Categorial

/-- What the rule makes of which children; of a top rule, the root that it admits. -/
def Rule.localTree (r : Rule) : LocalTree CatId :=
  match r.production with
  | .terminal => .word r.result
  | .unary c => if r.ruleType = .top then .root c else .unary c r.result
  | .binary left right => .binary left right r.result

/-- The rule is in the codebook although it was not seen so often: only unary and binary ones are dropped. -/
def Rule.kept (count : Nat) (r : Rule) : Bool := r.ruleType == .lexical || r.ruleType == .top || count ≤ r.count

/-- The rule without its number, which is its position and moves when rules before it are dropped. -/
def Rule.numberless (r : Rule) : Rule := { r with id := 0 }

namespace Grammar

def counted (g : Grammar) (p : LocalTree Category) : Nat :=
  (g.rules.toList.map fun r => if r.localTree.lookup g.categories == some p then r.count else 0).sum

end Grammar

namespace GrammarBuilder

section

variable {b : GrammarBuilder} {gid : Nat} {g : Grammar}

theorem localTree_explain (b : GrammarBuilder) (key : BinaryKey) : (b.explain key).localTree = key.localTree := by
  obtain ⟨hleft, hright, hresult⟩ := b.explain_children key
  rw [BinaryKey.localTree, hleft, hright, hresult, BinaryKey.localTree]

theorem nodup_explain (hb : b.Made) : (b.seenBinary.entries.map fun e => b.explain e.1).Nodup := by
  refine List.pairwise_map.mpr ((List.pairwise_map.mp hb.ordered.binary.nodup).imp_of_mem ?_)
  rintro ⟨⟨left, right, combinator, result⟩, n⟩ ⟨⟨left', right', combinator', result'⟩, n'⟩ he he' hne heq
  obtain ⟨hl, hr, hc⟩ := b.explain_children ⟨left, right, combinator, result⟩
  obtain ⟨hl', hr', hc'⟩ := b.explain_children ⟨left', right', combinator', result'⟩
  have hcombinator : combinator = combinator' :=
    (hb.ordered.observed _ he).trans (hb.ordered.observed _ he').symm
  simp only at heq hne
  rw [heq] at hl hr hc
  simp_all

theorem seen_binaryRules (hb : b.Made) (p : LocalTree Category) :
    b.binaryRules.seen b.categories BinaryKey.localTree p = b.seenBinary.seen b.categories BinaryKey.localTree p := by
  have hadd := Tally.weight_foldl_add_of_nodup (fun key : BinaryKey => key.localTree.lookup b.categories == some p)
    b.explain (t := ⟨b.enumerated.map fun key => (key, 0)⟩) (nodup_explain hb) hb.ordered.binaryCounts (by simp)
  have hzero : Tally.weight (fun key : BinaryKey => key.localTree.lookup b.categories == some p)
      ⟨b.enumerated.map fun key => (key, 0)⟩ = 0 := Tally.weight_eq_zero_iff.mpr (by simp)
  simp only [localTree_explain, hzero, Nat.zero_add] at hadd
  exact hadd

theorem seen_unaryRules (hb : b.Made) (p : LocalTree Category) :
    b.unaryRules.seen b.categories UnaryKey.localTree p = b.seenUnary.seen b.categories UnaryKey.localTree p := by
  have hclear := Tally.count_foldl_clear b.declared (t := .empty) nofun
  have hadd := Tally.weight_foldl_add_of_nodup (fun key : UnaryKey => key.localTree.lookup b.categories == some p) id
    hb.ordered.unary.nodup hb.ordered.unaryCounts fun e he _ => hclear e he
  rw [Tally.weight_eq_zero_iff.mpr fun e he _ => hclear e he, Nat.zero_add] at hadd
  exact hadd

theorem filter_minCount {κ : Type} (hcount : b.minCount = 0) (entries : List (κ × Nat)) :
    entries.filter (fun (_, n) => b.minCount ≤ n) = entries :=
  List.filter_eq_self.mpr (by simp [hcount])

theorem counted_of_build (hb : b.Made) (h : b.build gid = .ok g) (hcount : b.minCount = 0) (p : LocalTree Category) :
    g.counted p = b.tallied p := by
  obtain ⟨_, -, ⟨hcategories, -, -, -, -⟩, hrules⟩ := Grammar.contents_ofRules (ofRules_of_build h)
  rw [Grammar.counted, hcategories, hrules, map_rules (fun _ _ => rfl)]
  simp only [unnumbered, filter_minCount hcount, List.map_append, List.map_map, List.sum_append]
  change b.lexical.seen b.categories .word p + b.binaryRules.seen b.categories BinaryKey.localTree p +
    b.unaryRules.seen b.categories UnaryKey.localTree p + b.start.seen b.categories .root p = b.tallied p
  rw [seen_binaryRules hb, seen_unaryRules hb, tallied, Nat.add_right_comm (b.lexical.seen b.categories .word p)]

theorem count_le_counted {r : Rule} {p : LocalTree Category} (hr : r ∈ g.rules)
    (hp : r.localTree.lookup g.categories = some p) : r.count ≤ g.counted p := by
  refine List.single_le_sum (fun _ _ => Nat.zero_le _) _ (List.mem_map.mpr ⟨r, Array.mem_toList_iff.mpr hr, ?_⟩)
  simp [hp]

theorem counted_eq_count (hg : g.Indexed) {r : Rule} {p : LocalTree Category} (hr : r ∈ g.rules)
    (hp : r.localTree.lookup g.categories = some p)
    (hunique : ∀ r' ∈ g.rules, r'.localTree.lookup g.categories = some p → r' = r) : g.counted p = r.count := by
  have hnodup : g.rules.toList.Nodup := List.Nodup.of_map Rule.id (hg.positions ▸ List.nodup_range)
  have hother : ∀ r', r' ≠ r → r' ∈ g.rules.toList →
      (if r'.localTree.lookup g.categories == some p then r'.count else 0) = 0 := fun r' hne hr' =>
    if_neg fun heq => hne (hunique r' (Array.mem_toList_iff.mp hr') (eq_of_beq heq))
  rw [Grammar.counted, List.sum_map_eq_nsmul_single r _ hother,
    List.count_eq_one_of_mem hnodup (Array.mem_toList_iff.mpr hr), one_nsmul]
  simp [hp]

theorem kept_setMinCount (hcount : b.minCount = 0) (m : Nat) :
    (b.setMinCount m).rules.map Rule.numberless = (b.rules.filter (Rule.kept m)).map Rule.numberless := by
  have hkept : (b.rules.filter (Rule.kept m)).map Rule.numberless =
      (b.rules.map Rule.numberless).filter (Rule.kept m) := by
    rw [List.filter_map]
    rfl
  rw [hkept, map_rules (fun _ _ => rfl), map_rules (fun _ _ => rfl)]
  simp only [unnumbered, filter_minCount hcount, List.map_append, List.map_map, List.filter_append, List.filter_map]
  have hbinary (e : BinaryKey × Nat) : decide (m ≤ e.2) = Rule.kept m
      ⟨0, b.ruleType e.1, e.1.combinator, e.1.result, .binary e.1.left e.1.right, e.2⟩ := by
    rcases b.ruleType_eq_or e.1 with htype | htype <;> simp [Rule.kept, htype]
  have hunary (e : UnaryKey × Nat) : decide (m ≤ e.2) = Rule.kept m
      ⟨0, .unary, e.1.combinator, e.1.result, .unary e.1.child, e.2⟩ := by
    simp [Rule.kept]
  refine congrArg₂ _ (congrArg₂ _ (congrArg₂ _ ?_ ?_) ?_) ?_ <;> refine congrArg (List.map _) ?_
  · exact (List.filter_eq_self.mpr fun _ _ => rfl).symm
  · exact List.filter_congr fun e _ => hbinary e
  · exact List.filter_congr fun e _ => hunary e
  · exact (List.filter_eq_self.mpr fun _ _ => rfl).symm

theorem word_or_root {r : Rule} (hr : r ∈ b.rules) :
    ((r.ruleType = .lexical → r.localTree = .word r.result) ∧ (r.ruleType = .top → r.localTree = .root r.result)) ∧
      ∀ id, (r.localTree = .word id → r.name = (.lexical, id, .terminal)) ∧
        (r.localTree = .root id → r.name = (.top, id, .unary id)) := by
  obtain ⟨make, id, hmake, rfl⟩ := mem_rules_iff.mp hr
  obtain ⟨c, n, -, rfl⟩ | ⟨key, n, -, rfl⟩ | ⟨key, n, -, rfl⟩ | ⟨c, n, -, rfl⟩ :=
    mem_unnumbered (List.mem_of_getElem? hmake)
  · simp [Rule.localTree, Rule.name]
  · rcases b.ruleType_eq_or key with htype | htype <;> simp [Rule.localTree, htype]
  · simp [Rule.localTree]
  · simp [Rule.localTree, Rule.name]

theorem known_of_mem_rules (hb : b.Coherent) {r : Rule} (hr : r ∈ b.rules) :
    ∃ p, r.localTree.lookup b.categories = some p := by
  obtain ⟨make, id, hmake, rfl⟩ := mem_rules_iff.mp hr
  obtain ⟨c, n, hmem, rfl⟩ | ⟨key, n, hmem, rfl⟩ | ⟨key, n, hmem, rfl⟩ | ⟨c, n, hmem, rfl⟩ :=
    mem_unnumbered (List.mem_of_getElem? hmake)
  · exact hb.words _ hmem
  · obtain ⟨_, _, _, hleft, hright, hresult, -⟩ := derives_of_mem_binaryRules hb hmem
    exact ⟨_, key.lookup_localTree hleft hright hresult⟩
  · exact known_of_mem_unaryRules hb hmem
  · exact hb.roots _ hmem

theorem counted_of_type (hb : b.Made) (h : b.build gid = .ok g) {r : Rule} (hr : r ∈ g.rules)
    (htype : r.ruleType = .lexical ∨ r.ruleType = .top) {p : LocalTree Category}
    (hp : r.localTree.lookup g.categories = some p) : g.counted p = r.count := by
  obtain ⟨_, -, ⟨hcategories, -, -, -, -⟩, hrules⟩ := Grammar.contents_ofRules (ofRules_of_build h)
  refine counted_eq_count (Grammar.indexed_ofRules (ofRules_of_build h)) hr hp fun s hs hsp => ?_
  rw [hcategories] at hp hsp
  have hsame : s.localTree = r.localTree := LocalTree.rename_injective hb.coherent.id_unique hsp hp
  have hbuilt {q : Rule} (hq : q ∈ g.rules) : q ∈ b.rules := hrules ▸ Array.mem_toList_iff.mpr hq
  have hname : s.name = r.name := by
    obtain ⟨⟨hword, hroot⟩, hnames⟩ := word_or_root (hbuilt hr)
    rcases htype with hlexical | htop
    · have htree := hword hlexical
      exact ((word_or_root (hbuilt hs)).2 _).1 (hsame.trans htree) |>.trans ((hnames _).1 htree).symm
    · have htree := hroot htop
      exact ((word_or_root (hbuilt hs)).2 _).2 (hsame.trans htree) |>.trans ((hnames _).2 htree).symm
  obtain ⟨i, hi⟩ := Array.mem_iff_getElem?.mp hr
  obtain ⟨j, hj⟩ := Array.mem_iff_getElem?.mp hs
  obtain rfl := rule_unique hb h hi hj hname.symm
  exact Option.some.inj (hj.symm.trans hi)

/-- The counts of a codebook are those of the trees that its builder observed. The counts of the rules that make one
category of others come to the number of such nodes; a lexical rule counts all words of its category, and a top rule
all roots. No count is greater than the number of nodes, of which there are to be fewer than a counter can tell apart.
If rules are asked to be frequent, the others are left out. -/
theorem counts_of_build {trees : List BankTree} (hb : Recorded trees b)
    (hnodes : (trees.flatMap BankTree.nodes).length < 2 ^ 32) (hcount : b.minCount = 0) (h : b.build gid = .ok g) :
    (∀ p, g.counted p = (trees.flatMap BankTree.localTrees).count p) ∧
      (∀ r ∈ g.rules, ∀ c, g.category? r.result = some c →
        (r.ruleType = .lexical → r.count = (trees.flatMap BankTree.localTrees).count (.word c)) ∧
        (r.ruleType = .top → r.count = (trees.flatMap BankTree.localTrees).count (.root c))) ∧
      (∀ r ∈ g.rules, r.count ≤ (trees.flatMap BankTree.nodes).length) ∧
      ∀ m, ∃ g', (b.setMinCount m).build gid = .ok g' ∧
        g'.rules.toList.map Rule.numberless = (g.rules.toList.filter (Rule.kept m)).map Rule.numberless := by
  have hcounted (p : LocalTree Category) : g.counted p = (trees.flatMap BankTree.localTrees).count p :=
    (counted_of_build hb.made h hcount p).trans (hb.tallied_eq hnodes p)
  obtain ⟨_, -, ⟨hcategories, -, -, -, -⟩, hrules⟩ := Grammar.contents_ofRules (ofRules_of_build h)
  have hbuilt {r : Rule} (hr : r ∈ g.rules) : r ∈ b.rules := hrules ▸ Array.mem_toList_iff.mpr hr
  refine ⟨hcounted, fun r hr c hc => ⟨fun htype => ?_, fun htype => ?_⟩, fun r hr => ?_, fun m => ?_⟩
  · have hword := (word_or_root (hbuilt hr)).1.1 htype
    rw [← hcounted, counted_of_type hb.made h hr (.inl htype) (hword ▸ LocalTree.lookup_word hc)]
  · have hroot := (word_or_root (hbuilt hr)).1.2 htype
    rw [← hcounted, counted_of_type hb.made h hr (.inr htype) (hroot ▸ LocalTree.lookup_root hc)]
  · obtain ⟨p, hp⟩ := known_of_mem_rules hb.made.coherent (hbuilt hr)
    exact Nat.le_trans (count_le_counted hr (hcategories ▸ hp))
      ((hcounted p).trans_le (BankTree.count_flatMap_localTrees_le trees p))
  · have hstart : (b.setMinCount m).start.entries ≠ [] := (build_ok_iff hb.made gid).mp ⟨g, h⟩
    obtain ⟨g', h'⟩ := (build_ok_iff (hb.made.setMinCount m) gid).mpr hstart
    obtain ⟨_, -, -, hrules'⟩ := Grammar.contents_ofRules (ofRules_of_build h')
    exact ⟨g', h', by rw [hrules', hrules, kept_setMinCount hcount]⟩

end

end GrammarBuilder

namespace Observed

open GrammarBuilder

theorem recorded_builder : Recorded [tree] builder := by
  have hunmarked : Recorded [tree] unmarked :=
    .observe (.edit .empty (.setEnumerate false)) read_line (run_observe _ _)
  rw [← after_setMarkup]
  exact .edit hunmarked (.setMarkup verb.text ⟨none, [1]⟩)

theorem counts_of_build_tree : Recorded [tree] builder ∧ ([tree].flatMap BankTree.nodes).length < 2 ^ 32 ∧
    builder.minCount = 0 ∧ ∃ g, builder.build 0 = .ok g ∧
    g.counted (.binary np verb clause) = 1 ∧ ∃ g', (builder.setMinCount 2).build 0 = .ok g' ∧
      g'.rules.toList.map Rule.numberless = [⟨0, .lexical, .lexical, 1, .terminal, 1⟩,
        ⟨0, .lexical, .lexical, 2, .terminal, 1⟩, ⟨0, .top, .top, 0, .unary 0, 1⟩] := by
  obtain ⟨g, hg, -⟩ := exists_build
  obtain ⟨_, -, -, hrules⟩ := Grammar.contents_ofRules (ofRules_of_build hg)
  obtain ⟨hcounted, -, -, hkept⟩ := counts_of_build recorded_builder (by decide) rfl hg
  obtain ⟨g', hg', hrules'⟩ := hkept 2
  refine ⟨recorded_builder, by decide, rfl, g, hg, ?_, g', hg', ?_⟩
  · rw [hcounted]
    decide
  · rw [hrules', hrules, rules_builder]
    rfl

end Observed

end Categorial
