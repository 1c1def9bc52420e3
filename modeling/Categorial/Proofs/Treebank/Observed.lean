import Categorial.Proofs.Grammar.Counted
import Categorial.Proofs.Grammar.Spelled
import Categorial.Proofs.Treebank.Covered
set_option autoImplicit false

/-!
Every tree that a builder has observed is a derivation of the grammar that it builds, whatever else the builder was
given, as long as the grammar asks for one occurrence of a step at most. A step that was counted so often that its
counter stands at zero again is one that did not occur, where one occurrence is asked for.
-/

namespace Categorial

/-- Steps are dropped from a grammar if they are rare; words and roots are not. -/
def LocalTree.isStep {γ : Type} : LocalTree γ → Bool
  | word _ => false
  | unary _ _ => true
  | binary _ _ _ => true
  | root _ => false

namespace BankTree

def steps (t : BankTree) : List (LocalTree Category) := (t.nodes.filterMap localTree?).filter LocalTree.isStep

/-- The gold category of every word is a spelling of the category of its leaf. -/
inductive Spelled : BankTree → Prop
  | leaf {cat : Category} {token : Token} :
      (∀ gold, token.gold = some gold → Category.ofString? gold = .ok cat) → Spelled (.leaf cat token)
  | node {cat : Category} {head : Nat} {children : List BankTree} :
      (∀ t ∈ children, Spelled t) → Spelled (.node cat head children)

theorem spelled_of_read {s : List Char} {t : BankTree} (h : read s = .ok t) : t.Spelled := by
  refine read_induction (fun hcat => .leaf fun gold hgold => ?_) (fun _ => .node) h
  cases hgold
  rw [Category.ofString?, String.toList_ofList, hcat]

theorem exists_leaf_of_mem_tokens {t : BankTree} (ht : t.Spelled) {token : Token} (hmem : token ∈ t.tokens) :
    ∃ c, .leaf c token ∈ t.nodes ∧ ∀ gold, token.gold = some gold → Category.ofString? gold = .ok c := by
  induction ht with
  | @leaf c token' hspelled =>
    obtain rfl := List.mem_singleton.mp hmem
    exact ⟨c, List.mem_singleton_self _, hspelled⟩
  | @node c head children hchildren ih =>
    clear hchildren
    rw [tokens] at hmem
    suffices h : ∃ c, .leaf c token ∈ nodesOf children ∧
        ∀ gold, token.gold = some gold → Category.ofString? gold = .ok c by
      obtain ⟨c, hleaf, hspelled⟩ := h
      exact ⟨c, List.mem_cons_of_mem _ hleaf, hspelled⟩
    induction children with
    | nil => cases hmem
    | cons first rest ihrest =>
      rcases List.mem_append.mp hmem with hfirst | hrest
      · obtain ⟨c, hleaf, hspelled⟩ := ih first (by simp) hfirst
        exact ⟨c, List.mem_append_left _ hleaf, hspelled⟩
      · obtain ⟨c, hleaf, hspelled⟩ := ihrest (fun t ht => ih t (by simp [ht])) hrest
        exact ⟨c, List.mem_append_right _ hleaf, hspelled⟩

end BankTree

section

variable {r : Rule} {x y id : CatId}

theorem Rule.localTree_eq_word : r.localTree = .word id ↔ r.production = .terminal ∧ r.result = id := by
  unfold localTree
  split
  · simp [*]
  · split <;> simp [*]
  · simp [*]

theorem Rule.localTree_eq_unary :
    r.localTree = .unary x id ↔ r.production = .unary x ∧ r.ruleType ≠ .top ∧ r.result = id := by
  unfold localTree
  split
  · simp [*]
  · split <;> simp [*]
  · simp [*]

theorem Rule.localTree_eq_binary :
    r.localTree = .binary x y id ↔ r.production = .binary x y ∧ r.result = id := by
  unfold localTree
  split
  · simp [*]
  · split <;> simp [*]
  · simp [*, and_assoc]

theorem Rule.localTree_eq_root : r.localTree = .root id ↔ r.production = .unary id ∧ r.ruleType = .top := by
  unfold localTree
  split
  · simp [*]
  · split <;> simp [*]
  · simp [*]

end

def Grammar.Makes (g : Grammar) (p : LocalTree Category) : Prop :=
  ∃ r ∈ g.rules, r.localTree.lookup g.categories = some p

namespace GrammarBuilder

variable {b : GrammarBuilder} {gid : Nat} {g : Grammar} {p : LocalTree Category}

theorem ruleType_of_production {r : Rule} (hr : r ∈ b.rules) :
    (r.production = .terminal → r.ruleType = .lexical) ∧
      ∀ x, r.production = .unary x → r.ruleType ≠ .top → r.ruleType = .unary := by
  obtain ⟨make, id, hmake, rfl⟩ := mem_rules_iff.mp hr
  obtain ⟨_, _, -, rfl⟩ | ⟨_, _, -, rfl⟩ | ⟨_, _, -, rfl⟩ | ⟨_, _, -, rfl⟩ :=
    mem_unnumbered (List.mem_of_getElem? hmake) <;> simp

theorem covers_iff_makes (h : b.build gid = .ok g) {node : BankTree} (hp : node.localTree? = some p) :
    g.Covers node ↔ g.Makes p := by
  obtain ⟨_, -, -, hrules⟩ := Grammar.contents_ofRules (ofRules_of_build h)
  have hbuilt {r : Rule} (hr : r ∈ g.rules) : r ∈ b.rules := hrules ▸ Array.mem_toList_iff.mpr hr
  unfold BankTree.localTree? at hp
  split at hp
  · cases hp
    simp only [Grammar.Covers, Grammar.Makes, LocalTree.lookup_eq_word, Rule.localTree_eq_word]
    constructor
    · rintro ⟨_, hc, r, hr, htype, rfl⟩
      exact ⟨r, hr, _, Rule.localTree_eq_word.mp ((word_or_root (hbuilt hr)).1.1 htype), hc⟩
    · rintro ⟨r, hr, _, ⟨hproduction, rfl⟩, hc⟩
      exact ⟨_, hc, r, hr, (ruleType_of_production (hbuilt hr)).1 hproduction, rfl⟩
  · cases hp
    simp only [Grammar.Covers, Grammar.Makes, LocalTree.lookup_eq_unary, Rule.localTree_eq_unary]
    constructor
    · rintro ⟨_, _, hc, hx, r, hr, htype, hproduction, rfl⟩
      exact ⟨r, hr, _, _, ⟨hproduction, by simp [htype], rfl⟩, hx, hc⟩
    · rintro ⟨r, hr, _, _, ⟨hproduction, htype, rfl⟩, hx, hc⟩
      exact ⟨_, _, hc, hx, r, hr, (ruleType_of_production (hbuilt hr)).2 _ hproduction htype, hproduction, rfl⟩
  · cases hp
    simp only [Grammar.Covers, Grammar.Makes, LocalTree.lookup_eq_binary, Rule.localTree_eq_binary]
    constructor
    · rintro ⟨_, _, _, hc, hx, hy, r, hr, hproduction, rfl⟩
      exact ⟨r, hr, _, _, _, ⟨hproduction, rfl⟩, hx, hy, hc⟩
    · rintro ⟨r, hr, _, _, _, ⟨hproduction, rfl⟩, hx, hy, hc⟩
      exact ⟨_, _, _, hc, hx, hy, r, hr, hproduction, rfl⟩
  · cases hp

theorem makes_iff (h : b.build gid = .ok g) : g.Makes p ↔
    b.lexical.Lists b.categories .word p ∨
      (∃ e ∈ b.binaryRules.entries, e.1.localTree.lookup b.categories = some p ∧ b.minCount ≤ e.2) ∨
      (∃ e ∈ b.unaryRules.entries, e.1.localTree.lookup b.categories = some p ∧ b.minCount ≤ e.2) ∨
      b.start.Lists b.categories .root p := by
  obtain ⟨_, -, ⟨hcategories, -, -, -, -⟩, hrules⟩ := Grammar.contents_ofRules (ofRules_of_build h)
  have hlookup : g.Makes p ↔ some p ∈ b.rules.map fun r => r.localTree.lookup b.categories := by
    simp only [Grammar.Makes, hcategories, List.mem_map, ← hrules, Array.mem_toList_iff]
  rw [hlookup, map_rules (fun _ _ => rfl)]
  simp only [unnumbered, List.map_append, List.map_map, List.mem_append, List.mem_map, List.mem_filter,
    decide_eq_true_eq, or_assoc]
  refine or_congr Iff.rfl (or_congr ?_ (or_congr ?_ Iff.rfl))
  · exact exists_congr fun e => by rw [and_assoc, and_comm (a := b.minCount ≤ e.2)]; rfl
  · exact exists_congr fun e => by rw [and_assoc, and_comm (a := b.minCount ≤ e.2)]; rfl

theorem makes_of_lists (h : b.build gid = .ok g) (hp : b.Lists p) (hkept : p.isStep = true → b.minCount = 0) :
    g.Makes p := by
  rw [makes_iff h]
  rcases hp with hword | ⟨e, he, hp⟩ | ⟨e, he, hp⟩ | hroot
  · exact .inl hword
  · obtain ⟨n, hn⟩ := has_unaryRules he
    obtain ⟨x, hx, c, hc, rfl⟩ : ∃ x, b.categories[e.1.child]? = some x ∧ ∃ c, b.categories[e.1.result]? = some c ∧
        LocalTree.unary x c = p := by
      simpa [LocalTree.lookup, LocalTree.rename, UnaryKey.localTree, Option.bind_eq_some_iff] using hp
    exact .inr (.inr (.inl ⟨_, hn, hp, by simp [hkept rfl]⟩))
  · obtain ⟨n, hn⟩ := has_binaryRules he
    obtain ⟨x, hx, y, hy, c, hc, rfl⟩ : ∃ x, b.categories[e.1.left]? = some x ∧ ∃ y,
        b.categories[e.1.right]? = some y ∧ ∃ c, b.categories[e.1.result]? = some c ∧ LocalTree.binary x y c = p := by
      simpa [LocalTree.lookup, LocalTree.rename, BinaryKey.localTree, Option.bind_eq_some_iff] using hp
    exact .inr (.inl ⟨_, hn, by rwa [localTree_explain], by simp [hkept rfl]⟩)
  · exact .inr (.inr (.inr hroot))

section

variable {calls : List (BankTree × Except Error Unit)} {t : BankTree}

theorem Fed.lists_of_mem (hfed : Fed calls b) (hcall : (t, .ok ()) ∈ calls) (hp : p ∈ t.localTrees) : b.Lists p := by
  have hwhole : t.walk.2 = true := (hfed.ok_iff hcall).mp rfl
  exact hfed.reaches.lists p (.inr (List.mem_flatMap.mpr ⟨_, hcall, (BankTree.perm_counted hwhole).mem_iff.mpr hp⟩))

theorem Fed.licenses (hfed : Fed calls b) (hcall : (t, .ok ()) ∈ calls) (h : b.build gid = .ok g) :
    g.licenses t.sentence = true := by
  have hg : g.Obtained := .built hfed.made h
  obtain ⟨s, hread⟩ := hfed.exists_read hcall
  rw [Grammar.licenses, Array.all_eq_true_iff_forall_mem]
  intro token htoken
  have hmem : token ∈ t.tokens := by simpa [BankTree.sentence] using htoken
  obtain ⟨c, hleaf, hspelled⟩ := BankTree.exists_leaf_of_mem_tokens (BankTree.spelled_of_read hread) hmem
  cases hgold : token.gold with
  | none => rfl
  | some gold =>
    change ((g.catId? gold).bind g.lexicalRule?).isSome = true
    have hlists : b.Lists (.word c) :=
      hfed.lists_of_mem hcall (List.mem_cons_of_mem _ (List.mem_filterMap.mpr ⟨_, hleaf, rfl⟩))
    obtain ⟨cat, hcat, r, hr, htype, rfl⟩ : g.Covers (.leaf c token) :=
      (covers_iff_makes h rfl).mpr (makes_of_lists h hlists nofun)
    obtain ⟨rule, hrule⟩ := (hg.indexed.exists_of_mem hr (Grammar.lexicalFor r.result)
      (by simp [Grammar.lexicalFor, htype])).1
    rw [hg.catId?_eq_some_iff.mpr ⟨c, hspelled gold hgold, hcat⟩, Option.bind_some, hg.indexed.lexicalRule?, hrule]
    rfl

theorem Fed.lists_root (hfed : Fed calls b) (hcall : (t, .ok ()) ∈ calls) :
    b.start.Lists b.categories .root (.root t.cat) := by
  obtain ⟨_, _, hp⟩ | ⟨_, _, hp⟩ | ⟨_, _, hp⟩ | hroot := hfed.lists_of_mem hcall List.mem_cons_self
  · obtain ⟨_, heq, -⟩ := LocalTree.lookup_eq_root.mp hp
    cases heq
  · obtain ⟨_, heq, -⟩ := LocalTree.lookup_eq_root.mp hp
    cases heq
  · obtain ⟨_, heq, -⟩ := LocalTree.lookup_eq_root.mp hp
    cases heq
  · exact hroot

theorem Fed.exists_start (hfed : Fed calls b) (hcall : (t, .ok ()) ∈ calls) (h : b.build gid = .ok g) :
    ∃ cat ∈ g.start, g.category? cat = some t.cat := by
  have hg : g.Obtained := .built hfed.made h
  obtain ⟨r, hr, hp⟩ := (makes_iff h).mpr (.inr (.inr (.inr (hfed.lists_root hcall))))
  obtain ⟨cat, htree, hcat⟩ := LocalTree.lookup_eq_root.mp hp
  obtain ⟨hproduction, htype⟩ := Rule.localTree_eq_root.mp htree
  exact ⟨cat, (hg.startsListed cat).mpr ⟨r, hr, htype, hproduction⟩, hcat⟩

end

end GrammarBuilder

namespace Observed

open GrammarBuilder

end Observed

end Categorial
