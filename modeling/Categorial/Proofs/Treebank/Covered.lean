import Categorial.Proofs.Grammar.Obtained
import Categorial.Proofs.Treebank.Nodes
import Categorial.Proofs.Treebank.Resolved
set_option autoImplicit false

/-!
Which treebank derivations a codebook resolves. What a node needs can be told from its category and those of its
children; a tree is resolved exactly if every node has what it needs and the root is a start category. The derivation
then repeats the tree node by node, over the words from the first to the last.
-/

namespace Categorial

namespace Grammar

/-- The codebook has the category of the node, and a rule that makes it: a lexical one at a word, and else one on
the categories of its one child or its two. -/
def Covers (g : Grammar) : BankTree → Prop
  | .leaf c _ => ∃ cat, g.category? cat = some c ∧ ∃ r ∈ g.rules, r.ruleType = .lexical ∧ r.result = cat
  | .node c _ [child] => ∃ cat x, g.category? cat = some c ∧ g.category? x = some child.cat ∧
      ∃ r ∈ g.rules, r.ruleType = .unary ∧ r.production = .unary x ∧ r.result = cat
  | .node c _ [left, right] => ∃ cat x y, g.category? cat = some c ∧ g.category? x = some left.cat ∧
      g.category? y = some right.cat ∧ ∃ r ∈ g.rules, r.production = .binary x y ∧ r.result = cat
  | .node _ _ _ => False

inductive Mirrors (g : Grammar) : BankTree → Derivation → Prop
  | leaf {c : Category} {token : Token} {cat : CatId} {rule : RuleId} {span : Span} : g.category? cat = some c →
      Mirrors g (.leaf c token) (.leaf ⟨cat, rule⟩ span)
  | unary {c : Category} {head : Nat} {child : BankTree} {t : Derivation} {cat : CatId} {rule : RuleId}
      {span : Span} : g.category? cat = some c → Mirrors g child t →
      Mirrors g (.node c head [child]) (.branch ⟨cat, rule⟩ span [t])
  | binary {c : Category} {head : Nat} {left right : BankTree} {l r : Derivation} {cat : CatId} {rule : RuleId}
      {span : Span} : g.category? cat = some c → Mirrors g left l → Mirrors g right r →
      Mirrors g (.node c head [left, right]) (.branch ⟨cat, rule⟩ span [l, r])

theorem Mirrors.category? {g : Grammar} {t : BankTree} {d : Derivation} (h : g.Mirrors t d) :
    g.category? d.step.cat = some t.cat := by
  cases h with
  | leaf hc => exact hc
  | unary hc _ => exact hc
  | binary hc _ _ => exact hc

variable {g : Grammar}

theorem Indexed.exists_of_mem (hg : g.Indexed) {r : Rule} (hr : r ∈ g.rules) (kind : Rule → Bool)
    (hkind : kind r = true) : (∃ rule, (g.idsWhere kind).getLast? = some rule) ∧
      ∃ rule, (g.idsWhere kind).find? (g.builds r.result) = some rule := by
  obtain ⟨id, hid⟩ := Array.mem_iff_getElem?.mp hr
  have hmem : id ∈ g.idsWhere kind := hg.mem_idsWhere.mpr ⟨r, hid, hkind⟩
  constructor
  · exact Option.isSome_iff_exists.mp (List.getLast?_isSome.mpr (List.ne_nil_of_mem hmem))
  · exact Option.isSome_iff_exists.mp (List.find?_isSome.mpr ⟨id, hmem, builds_iff.mpr ⟨r, hid, rfl⟩⟩)

theorem mem_of_rule? {id : RuleId} {r : Rule} (h : g.rule? id = some r) : r ∈ g.rules := Array.mem_of_getElem? h

section

variable (hg : g.Obtained)

include hg

theorem Resolves.mirrors {t : BankTree} {next stop : Nat} {d : Derivation} (h : g.Resolves t next d stop)
    (ht : t.Proper) : g.Mirrors t d := by
  induction h with
  | leaf hcat _ => exact .leaf ((hg.catIdOf?_eq_some_iff ht.cat).mp hcat)
  | unary hcat _ _ ih =>
    exact .unary ((hg.catIdOf?_eq_some_iff ht.cat).mp hcat) (ih (ht.child _ (by simp)))
  | binary hcat _ _ _ ihl ihr =>
    exact .binary ((hg.catIdOf?_eq_some_iff ht.cat).mp hcat) (ihl (ht.child _ (by simp)))
      (ihr (ht.child _ (by simp)))

theorem Resolves.covers {t : BankTree} {next stop : Nat} {d : Derivation} (h : g.Resolves t next d stop)
    (ht : t.Proper) : ∀ node ∈ t.nodes, g.Covers node := by
  induction h with
  | @leaf c token next cat rule hcat hrule =>
    obtain ⟨r, hr, htype, hresult⟩ := hg.indexed.rule_of_lexicalRule? hrule
    refine List.forall_mem_singleton.mpr ?_
    exact ⟨cat, (hg.catIdOf?_eq_some_iff ht.cat).mp hcat, r, mem_of_rule? hr, htype, hresult⟩
  | @unary c head next stop child t cat rule hcat hchild hrule ih =>
    have hproper := ht.child child (by simp)
    obtain ⟨r, hr, htype, hproduction, hresult⟩ := hg.indexed.unaryRule_of_find? hrule
    simp only [BankTree.nodes, BankTree.nodesOf, List.append_nil, List.forall_mem_cons]
    refine ⟨⟨cat, t.step.cat, (hg.catIdOf?_eq_some_iff ht.cat).mp hcat, (hchild.mirrors hg hproper).category?, r,
      mem_of_rule? hr, htype, hproduction, hresult⟩, ih hproper⟩
  | @binary c head next mid stop left right l r cat rule hcat hl hr hrule ihl ihr =>
    have hleft := ht.child left (by simp)
    have hright := ht.child right (by simp)
    obtain ⟨q, hq, hproduction, hresult⟩ := hg.indexed.binaryRule_of_find? hrule
    simp only [BankTree.nodes, BankTree.nodesOf, List.append_nil, List.forall_mem_cons, List.forall_mem_append]
    exact ⟨⟨cat, l.step.cat, r.step.cat, (hg.catIdOf?_eq_some_iff ht.cat).mp hcat, (hl.mirrors hg hleft).category?,
      (hr.mirrors hg hright).category?, q, mem_of_rule? hq, hproduction, hresult⟩, ihl hleft, ihr hright⟩

theorem exists_resolves {t : BankTree} (ht : t.Proper) : (∀ node ∈ t.nodes, g.Covers node) →
    ∀ next, ∃ d stop, g.Resolves t next d stop := by
  -- a child is resolved under the id under which its category stands
  have hid {t : BankTree} {next stop : Nat} {d : Derivation} {x : CatId} (ht : t.Proper)
      (hd : g.Resolves t next d stop) (hx : g.category? x = some t.cat) : d.step.cat = x := by
    have hroot := (hg.catIdOf?_eq_some_iff ht.cat).mpr (hd.mirrors hg ht).category?
    exact Option.some.inj (hroot.symm.trans ((hg.catIdOf?_eq_some_iff ht.cat).mpr hx))
  induction ht with
  | @leaf c token hc =>
    intro hnodes next
    have hself : g.Covers (.leaf c token) := hnodes _ (by simp [BankTree.nodes])
    obtain ⟨cat, hcat, r, hr, htype, rfl⟩ := hself
    obtain ⟨rule, hrule⟩ := (hg.indexed.exists_of_mem hr (lexicalFor r.result) (by simp [lexicalFor, htype])).1
    exact ⟨_, _, .leaf ((hg.catIdOf?_eq_some_iff hc).mpr hcat) (by rw [hg.indexed.lexicalRule?, hrule])⟩
  | @node c head children hc hproper ih =>
    intro hnodes next
    have hself : g.Covers (.node c head children) := hnodes _ (by simp [BankTree.nodes])
    rcases children with _ | ⟨left, _ | ⟨right, _ | _⟩⟩
    · cases hself
    · obtain ⟨cat, x, hcat, hx, r, hr, htype, hproduction, rfl⟩ := hself
      obtain ⟨d, stop, hd⟩ := ih left (by simp)
        (fun node hnode => hnodes node (by simp [BankTree.nodes, BankTree.nodesOf, hnode])) next
      obtain rfl := hid (hproper left (by simp)) hd hx
      obtain ⟨rule, hrule⟩ := (hg.indexed.exists_of_mem hr (unaryFor d.step.cat)
        (by simp [unaryFor, htype, hproduction])).2
      exact ⟨_, _, .unary ((hg.catIdOf?_eq_some_iff hc).mpr hcat) hd (by rw [hg.indexed.unaryRules, hrule])⟩
    · obtain ⟨cat, x, y, hcat, hx, hy, q, hq, hproduction, rfl⟩ := hself
      obtain ⟨l, mid, hl⟩ := ih left (by simp)
        (fun node hnode => hnodes node (by simp [BankTree.nodes, BankTree.nodesOf, hnode])) next
      obtain ⟨r, stop, hr⟩ := ih right (by simp)
        (fun node hnode => hnodes node (by simp [BankTree.nodes, BankTree.nodesOf, hnode])) mid
      obtain rfl := hid (hproper left (by simp)) hl hx
      obtain rfl := hid (hproper right (by simp)) hr hy
      obtain ⟨rule, hrule⟩ := (hg.indexed.exists_of_mem hq (binaryFor l.step.cat r.step.cat)
        (by simp [binaryFor, hproduction])).2
      exact ⟨_, _, .binary ((hg.catIdOf?_eq_some_iff hc).mpr hcat) hl hr (by rw [hg.indexed.binaryRules, hrule])⟩
    · cases hself

/-- A tree is resolved exactly if the codebook covers every node of it and its root is a start category. The
derivation repeats the tree, every step of it is a rule on just these categories over the span of its children, and
its leaves are the words in their order. -/
theorem resolve_ok_iff {t : BankTree} (ht : t.Proper) :
    ((∃ d, g.resolve t = .ok d) ↔
      (∀ node ∈ t.nodes, g.Covers node) ∧ ∃ cat ∈ g.start, g.category? cat = some t.cat) ∧
    ∀ d, g.resolve t = .ok d → g.Mirrors t d ∧ g.Licenses (fun _ _ => True) d ∧
      d.leaves.map Prod.snd = (List.range t.tokens.length).map Span.word ∧ d.span = ⟨0, t.tokens.length⟩ := by
  have hroot {d : Derivation} {stop : Nat} (hd : g.Resolves t 0 d stop) : g.isStart d.step.cat = true ↔
      ∃ cat ∈ g.start, g.category? cat = some t.cat := by
    have hcat := (hd.mirrors hg ht).category?
    rw [hg.isStart_iff]
    refine ⟨fun hmem => ⟨_, hmem, hcat⟩, ?_⟩
    rintro ⟨cat, hmem, hcat'⟩
    have hsame := (hg.catIdOf?_eq_some_iff ht.cat).mpr hcat
    obtain rfl := Option.some.inj (hsame.symm.trans ((hg.catIdOf?_eq_some_iff ht.cat).mpr hcat'))
    exact hmem
  refine ⟨⟨?_, ?_⟩, fun d hd => ?_⟩
  · rintro ⟨d, hd⟩
    obtain ⟨⟨stop, hresolves⟩, hstart⟩ := resolve_eq_ok.mp hd
    exact ⟨hresolves.covers hg ht, (hroot hresolves).mp hstart⟩
  · rintro ⟨hnodes, hstart⟩
    obtain ⟨d, stop, hresolves⟩ := exists_resolves hg ht hnodes 0
    exact ⟨d, resolve_eq_ok.mpr ⟨⟨stop, hresolves⟩, (hroot hresolves).mpr hstart⟩⟩
  · obtain ⟨⟨stop, hresolves⟩, -⟩ := resolve_eq_ok.mp hd
    obtain ⟨hspan, hstop⟩ := hresolves.span_eq
    have hlicensed := hresolves.licenses hg.indexed
    rw [Nat.zero_add] at hstop
    subst hstop
    refine ⟨hresolves.mirrors hg ht, hlicensed, ?_, hspan⟩
    rw [hlicensed.leaves_eq, hspan, List.range_eq_range']
    rfl

end

end Grammar

namespace Observed

def promoted : BankTree := .node clause 0 [.leaf np ⟨"dogs", "NNS", none⟩]

theorem proper_promoted : promoted.Proper := by
  refine .node proper_verb.1 fun t ht => ?_
  obtain rfl := List.mem_singleton.mp ht
  exact .leaf proper_verb.2

theorem resolve_ok_iff_tree : ∃ g : Grammar, g.Obtained ∧ tree.Proper ∧ promoted.Proper ∧
    (∃ d, g.resolve tree = .ok d ∧ g.Mirrors tree d ∧ d.leaves.map Prod.snd = [⟨0, 1⟩, ⟨1, 2⟩]) ∧
    ¬ ∃ d, g.resolve promoted = .ok d := by
  obtain ⟨g, hbuild, -⟩ := exists_build
  have hg : g.Obtained := .built made_builder hbuild
  obtain ⟨catIds, -, hcontents, hlist⟩ := Grammar.contents_ofRules (GrammarBuilder.ofRules_of_build hbuild)
  rw [rules_builder] at hlist
  have hcategory (id : CatId) : g.category? id = #[clause, np, verb][id]? := by
    rw [Grammar.category?, hcontents.categories_eq]
    rfl
  have hrule {i : Nat} {r : Rule} (h : g.rules.toList[i]? = some r) : r ∈ g.rules :=
    Array.mem_toList_iff.mp (List.mem_of_getElem? h)
  have hcovers : ∀ node ∈ tree.nodes, g.Covers node := by
    have hnodes : tree.nodes = [tree, .leaf np ⟨"dogs", "NNS", some "NP"⟩,
        .leaf verb ⟨"run", "VBP", some "(S[dcl])\\NP"⟩] := rfl
    rw [hnodes, List.forall_mem_cons, List.forall_mem_cons, List.forall_mem_singleton]
    exact ⟨⟨0, 1, 2, hcategory 0, hcategory 1, hcategory 2, _, hrule (i := 2) (by rw [hlist]; rfl), rfl, rfl⟩,
      ⟨1, hcategory 1, _, hrule (i := 0) (by rw [hlist]; rfl), rfl, rfl⟩,
      ⟨2, hcategory 2, _, hrule (i := 1) (by rw [hlist]; rfl), rfl, rfl⟩⟩
  have hstart : 0 ∈ g.start := (hg.startsListed 0).mpr ⟨_, hrule (i := 3) (by rw [hlist]; rfl), rfl, rfl⟩
  have hnone : ¬ g.Covers promoted := by
    rintro ⟨cat, x, -, -, r, hr, htype, -⟩
    have hother : ∀ r ∈ g.rules.toList, r.ruleType ≠ .unary := by
      rw [hlist]
      decide
    exact hother r (Array.mem_toList_iff.mpr hr) htype
  have hproper : tree.Proper := BankTree.proper_of_read read_line
  obtain ⟨hiff, hderivation⟩ := Grammar.resolve_ok_iff hg hproper
  obtain ⟨d, hd⟩ := hiff.mpr ⟨hcovers, 0, hstart, hcategory 0⟩
  obtain ⟨hmirrors, -, hleaves, -⟩ := hderivation d hd
  refine ⟨g, hg, hproper, proper_promoted, ⟨d, hd, hmirrors, hleaves⟩, fun h => ?_⟩
  exact hnone (((Grammar.resolve_ok_iff hg proper_promoted).1.mp h).1 promoted (by simp [promoted, BankTree.nodes]))

end Observed

end Categorial
