import Categorial.Proofs.Coarse.Exact
import Categorial.Proofs.Fine.Numbers
import Categorial.Proofs.KBest.First
import Mathlib.Logic.Relation
set_option autoImplicit false

/-!
The best derivation and the first of the best `k`, on doubles. They are the same unless on the way down the
best tree zeros are swapped: the edges and the roots are sorted as numbers, which takes a negative zero for
a positive one, and the ranking goes by the total order, which does not.
-/

namespace Categorial

namespace FineChart

def FirstChild {α : Type} (f : FineChart α) (i child : FineId) : Prop :=
  ∃ x e rest, f.item? i = some x ∧ x.edges = e :: rest ∧ child ∈ e.step.children

/-- No zeros are swapped among an item's edges, nor on the way down from it along the first edges. -/
def Settled (f : FineChart Double) (i : FineId) : Prop :=
  ∀ j, Relation.ReflTransGen f.FirstChild i j → ∀ x, f.item? j = some x →
    ¬ZerosSwapped (x.edges.map FineEdge.score)

variable {f : FineChart Double} {m : Model Double} {retain : Retain} {c : CoarseChart Double}
  {tags : Supertags Double}

theorem settled_iff {i : FineId} {x : FineItem Double} (hx : f.item? i = some x) {e : FineEdge Double}
    {rest : List (FineEdge Double)} (hedges : x.edges = e :: rest) :
    f.Settled i ↔ ¬ZerosSwapped (x.edges.map FineEdge.score) ∧
      ∀ child ∈ e.step.children, f.Settled child := by
  constructor
  · intro h
    exact ⟨h i .refl x hx, fun child hchild j hj => h j (hj.head ⟨x, e, rest, hx, hedges, hchild⟩)⟩
  · rintro ⟨hswapped, hchildren⟩ j hj y hy
    rcases hj.cases_head with rfl | ⟨child, ⟨x', e', rest', hx', hedges', hchild⟩, hj⟩
    · cases hx.symm.trans hy
      exact hswapped
    · cases hx.symm.trans hx'
      cases hedges.symm.trans hedges'
      exact hchildren child hchild j hj y hy

/-- The tree that an edge makes of the first derivations of its children. -/
def firstTree (f : FineChart Double) (site : Site) (e : FineEdge Double) : Derivation :=
  e.step.node site (((e.step.children.map fun child => (f.rankings 1)[child]?.getD .nil).filterMap
    Ranking.head?).map Parse.tree)

theorem firstTree_eq {site : Site} {e : FineEdge Double} {picks : List (Parse Double)}
    (h : List.Forall₂ (fun child p => ((f.rankings 1)[child]?.getD .nil).head? = some p)
      e.step.children picks) : f.firstTree site e = e.step.node site (picks.map Parse.tree) := by
  rw [firstTree, filterMap_eq_of_forall₂ (List.forall₂_map_left_iff.mpr h), List.map_id']

section

variable (hs : Sound c m retain ((cellsOf c (spansOf c.sentence.length)).map Prod.fst) f)
  (hm : m.Numeric)

include hs hm

/-- The first derivation of an item is over its first edge, unless zeros are swapped among the edges. -/
theorem exists_first_edge {i : FineId} {x : FineItem Double} (hx : f.item? i = some x)
    {e₀ : FineEdge Double} {rest : List (FineEdge Double)} (hedges : x.edges = e₀ :: rest)
    (hpossible : Scalar.isBottom e₀.score = false) : ∃ e ∈ x.edges, Scalar.isBottom e.score = false ∧
      (∃ r, (f.rankings 1)[i]? = some r ∧ r.toList = [⟨f.firstTree x.site e, e.score⟩]) ∧
      (¬ZerosSwapped (x.edges.map FineEdge.score) ∧ e = e₀ ∨
        ZerosSwapped (x.edges.map FineEdge.score) ∧ e.score ≠ e₀.score) := by
  obtain ⟨_, _, _, _, _, hmade⟩ := hs.exists_source hx
  have hdesc := descending_edges hs hm hx
  have hranking := getElem?_rankings 1 hx fun e he => (hmade.built_of_mem he).2
  have hscores : (rankedEdges (f.rankings 1) x).map RankedEdge.score = x.edges.map FineEdge.score := by
    rw [rankedEdges, List.map_map]
    rfl
  have hranked : Descending RankedEdge.score (rankedEdges (f.rankings 1) x) := List.pairwise_map.mpr hdesc
  have hcons : rankedEdges (f.rankings 1) x = _ :: _ := congrArg (List.map _) hedges
  rw [hcons] at hranked
  obtain ⟨e', he', hpossible', hrank, hwhich⟩ := exists_first hranked hpossible
  rw [← hcons] at he' hrank hwhich
  rw [hscores] at hwhich
  rcases hwhich with ⟨hkept, rfl⟩ | ⟨hswapped, hne⟩
  · exact ⟨e₀, hedges ▸ List.mem_cons_self, hpossible, ⟨_, hranking, hrank⟩, .inl ⟨hkept, rfl⟩⟩
  · obtain ⟨e, he, rfl⟩ := List.mem_map.mp he'
    exact ⟨e, he, hpossible', ⟨_, hranking, hrank⟩, .inr ⟨hswapped, hne⟩⟩

variable (hc : c.Saturated tags) (hg : c.grammar.Indexed)

include hc hg

omit hm in
theorem exists_bestTree_children {i : FineId} {x : FineItem Double} (hx : f.item? i = some x)
    {e₀ : FineEdge Double} {rest : List (FineEdge Double)} (hedges : x.edges = e₀ :: rest) :
    ∃ ts, f.bestTrees[i]? = some (e₀.step.node x.site ts) ∧ List.Forall₂ (fun child t =>
      f.bestTrees[child]? = some t ∧ ∃ y, f.Under m child t y) e₀.step.children ts := by
  obtain ⟨_, _, _, _, _, hmade⟩ := hs.exists_source hx
  obtain ⟨hbuilt, hbelow⟩ := hmade.built_of_mem (hedges ▸ List.mem_cons_self)
  obtain ⟨ts, hts⟩ : ∃ ts, List.Forall₂ (fun child t =>
      f.bestTrees[child]? = some t ∧ ∃ y, f.Under m child t y) e₀.step.children ts := by
    refine exists_forall₂ fun child hchild => ?_
    obtain ⟨y, hy⟩ := hbuilt.exists_child hchild
    obtain ⟨t, ht, hunder⟩ := exists_bestTree hs hc hg child hy
    exact ⟨t, ht, _, hunder⟩
  refine ⟨ts, ?_, hts⟩
  rw [getElem?_bestTrees hx hedges hbelow, filterMap_eq_of_forall₂ (hts.imp fun _ _ h => h.1),
    List.map_id']

theorem exists_first_parse (i : FineId) : ∀ {x : FineItem Double}, f.item? i = some x →
    Scalar.isBottom x.score = false → ∃ r p, (f.rankings 1)[i]? = some r ∧ r.toList = [p] ∧
      (∃ y, f.Under m i p.tree y) ∧ (f.bestTrees[i]? = some p.tree ↔ f.Settled i) := by
  induction i using Nat.strong_induction_on with
  | _ i ih =>
    intro x hx hpossible
    obtain ⟨_, source, ps, _, _, hmade⟩ := hs.exists_source hx
    obtain ⟨e₀, rest, hedges, hscore⟩ := hmade.exists_first
    have he₀ : e₀ ∈ x.edges := hedges ▸ List.mem_cons_self
    obtain ⟨e, he, hedge, ⟨r, hr, hlist⟩, hwhich⟩ :=
      exists_first_edge hs hm hx hedges (hscore ▸ hpossible)
    obtain ⟨hbuilt, hbelow⟩ := hmade.built_of_mem he
    obtain ⟨picks, hpicks⟩ : ∃ picks : List (Parse Double × Double), List.Forall₂ (fun child z =>
        ((f.rankings 1)[child]?.getD .nil).head? = some z.1 ∧ f.Under m child z.1.tree z.2 ∧
          (f.bestTrees[child]? = some z.1.tree ↔ f.Settled child)) e.step.children picks := by
      refine exists_forall₂ fun child hchild => ?_
      obtain ⟨y, hy, hpossible⟩ := hbuilt.possible_child rfl hedge hchild
      obtain ⟨r, p, hr, hlist, ⟨z, hunder⟩, hbest⟩ := ih child (hbelow child hchild) hy hpossible
      refine ⟨⟨p, z⟩, ?_, hunder, hbest⟩
      rw [hr, Option.getD_some, ← Ranking.head?_toList, hlist]
      rfl
    have htree : f.firstTree x.site e = e.step.node x.site (picks.map fun z => z.1.tree) := by
      rw [firstTree_eq (List.forall₂_map_right_iff.mpr (hpicks.imp fun _ _ h => h.1)), List.map_map]
      rfl
    have hunder : List.Forall₂ (fun child (p : Parse Double) => f.Under m child p.tree p.score)
        e.step.children (picks.map fun z => ⟨z.1.tree, z.2⟩) :=
      List.forall₂_map_right_iff.mpr (hpicks.imp fun _ _ h => h.2.1)
    have hnode := under_node hs hc hg hx he hunder
    rw [List.map_map] at hnode
    refine ⟨r, _, hr, hlist, ⟨_, htree ▸ hnode⟩, ?_⟩
    obtain ⟨ts, hbest, hts⟩ := exists_bestTree_children hs hc hg hx hedges
    -- if the two trees are the same, then so are the edges and, child by child, the trees below
    have hinj : f.bestTrees[i]? = some (f.firstTree x.site e) →
        e₀ = e ∧ ts = picks.map fun z => z.1.tree := by
      intro hsame
      rw [hbest, htree] at hsame
      refine node_inj hs hc hg hx he₀ he (hts.imp fun _ _ h => h.2) ?_ (Option.some.inj hsame)
      exact List.forall₂_map_right_iff.mpr (hpicks.imp fun _ _ h => ⟨_, h.2.1⟩)
    rw [settled_iff hx hedges]
    rcases hwhich with ⟨hkept, rfl⟩ | ⟨hswapped, hne⟩
    · constructor
      · intro hsame
        obtain ⟨_, rfl⟩ := hinj hsame
        have hsettled : List.Forall₂ (fun child _ => f.Settled child ∧ True) e.step.children picks :=
          (List.forall₂_map_right_iff.mp hts).mp (fun _ _ ht h => ⟨h.2.2.mp ht.1, trivial⟩) hpicks
        exact ⟨hkept, ((List.forall₂_and_left _ _).mp hsettled).1⟩
      · rintro ⟨_, hsettled⟩
        have hpicks := (List.forall₂_and_left _ _).mpr ⟨hsettled, hpicks⟩
        rw [htree, getElem?_bestTrees hx hedges hbelow,
          filterMap_eq_of_forall₂ (hpicks.imp fun _ _ h => h.2.2.2.mpr h.1)]
    · exact iff_of_false (fun hsame => hne (congrArg FineEdge.score (hinj hsame).1.symm))
        fun h => h.1 hswapped

theorem exists_root_parse (hroots : f.roots = f.findRoots m) {r : Root Double} (hr : r ∈ f.roots) :
    ∃ p : Parse Double, ((f.rankings 1)[r.item]?.getD .nil).head? = some p ∧
      (f.bestTrees[r.item]? = some p.tree ↔ f.Settled r.item) := by
  obtain ⟨_, _, x, _, _, hx, _, hscore, hpossible⟩ := hs.root_of_mem hroots hr
  rw [hscore] at hpossible
  obtain ⟨ranking, p, hranking, hlist, _, hbest⟩ :=
    exists_first_parse hs hm hc hg r.item hx.1 (not_isBottom_of_both rfl hpossible).2
  refine ⟨p, ?_, hbest⟩
  rw [hranking, Option.getD_some, ← Ranking.head?_toList, hlist]
  rfl

theorem kBest_one_spec (hroots : f.roots = f.findRoots m) :
    (f.kBest 1 = [] ↔ f.viterbi? = none) ∧ (f.kBest 1 = f.viterbi?.toList ↔
      ¬ZerosSwapped (f.roots.map Root.score) ∧ ∀ r ∈ f.roots.head?, f.Settled r.item) := by
  cases hcons : f.roots with
  | nil =>
    have hkBest : f.kBest 1 = [] := by
      obtain ⟨_, hrank⟩ | ⟨_, hfirst, _⟩ := rank_one (f.rootEdges (f.rankings 1))
      · rw [kBest, Ranking.take_eq, hrank]
        rfl
      · simp [rootEdges, hcons, Frontier.firstsOf] at hfirst
    simp [hkBest, viterbi?, hcons, ZerosSwapped]
  | cons r₀ rest =>
    have hr₀ : r₀ ∈ f.roots := hcons ▸ List.mem_cons_self
    obtain ⟨_, _, _, _, _, _, _, _, hpossible⟩ := hs.root_of_mem hroots hr₀
    obtain ⟨t, _, hviterbi, htree, _⟩ := viterbi?_of_cons hs hc hg hroots hcons
    have hscores : (f.rootEdges (f.rankings 1)).map RankedEdge.score = f.roots.map Root.score := by
      rw [rootEdges, List.map_map]
      rfl
    have hranked : Descending RankedEdge.score (f.rootEdges (f.rankings 1)) :=
      List.pairwise_map.mpr (descending_roots_of_numeric hs hm hroots)
    have hedges : f.rootEdges (f.rankings 1) = _ :: _ := congrArg (List.map _) hcons
    rw [hedges] at hranked
    obtain ⟨e, he, _, hrank, hwhich⟩ := exists_first hranked hpossible
    rw [← hedges] at he hrank hwhich
    rw [hscores] at hwhich
    rcases hwhich with ⟨hkept, rfl⟩ | ⟨hswapped, hne⟩
    · obtain ⟨p, hp, hbest⟩ := exists_root_parse hs hm hc hg hroots hr₀
      have hkBest : f.kBest 1 = [⟨p.tree, r₀.score⟩] := by
        rw [kBest, Ranking.take_eq, hrank]
        simp [hp]
      rw [htree, Option.some.injEq] at hbest
      rw [hcons, List.map_cons] at hkept
      rw [hkBest, hviterbi]
      simp [hkept, ← hbest, eq_comm]
    · obtain ⟨r, hr, rfl⟩ := List.mem_map.mp he
      obtain ⟨p, hp, _⟩ := exists_root_parse hs hm hc hg hroots hr
      have hkBest : f.kBest 1 = [⟨p.tree, r.score⟩] := by
        rw [kBest, Ranking.take_eq, hrank]
        simp [hp]
      have hne : r.score ≠ r₀.score := hne
      rw [hkBest, hviterbi, ← hcons]
      simp [hswapped, hne]

end

/-- The first of the best `k` derivations is there exactly if there is a best one, and is that one exactly
if zeros are swapped neither among the roots nor among the edges on the way down the best tree. -/
theorem kBest_one_iff {g : Grammar} {s : Sentence} {beta : Double} {maxItems gid : Nat}
    {categories : Array Category} {rules : List Rule} {markups : List (CatId × Markup)}
    {beam : Option Double} (hg : Grammar.ofRules gid categories rules markups = .ok g)
    (hc : CoarseChart.build g s tags beta maxItems = .ok c)
    (hf : FineChart.build c m retain beam = .ok f) (hm : m.Numeric) :
    (f.kBest 1 = [] ↔ f.viterbi? = none) ∧ (f.kBest 1 = f.viterbi?.toList ↔
      ¬ZerosSwapped (f.roots.map Root.score) ∧ ∀ r ∈ f.roots.head?, f.Settled r.item) := by
  obtain ⟨rfl, rfl, hsat, _⟩ := CoarseChart.build_ok hc
  have hroots : f.roots = f.findRoots m := congrArg FineChart.roots (build_ok hf)
  exact kBest_one_spec (sound_build hsat hf) hm hsat (Grammar.indexed_ofRules hg) hroots

end FineChart

namespace SwappedZeros

/-! One word with two categories, each of which may end a derivation. -/

open CoarseChart

def categories : Array Category := #[.atom "S" none, .atom "NP" none]

def rules : List Rule :=
  [⟨0, .lexical, .lexical, 0, .terminal, 1⟩, ⟨1, .lexical, .lexical, 1, .terminal, 1⟩,
    ⟨2, .top, .top, 0, .unary 0, 1⟩, ⟨3, .top, .top, 1, .unary 1, 1⟩]

def word : Sentence := ⟨#[⟨"x", "X", none⟩]⟩

def one : Double := ⟨0x3FF0000000000000⟩

def tags : Supertags Double := ⟨[[⟨0, one⟩, ⟨1, one⟩]]⟩

theorem exists_grammar :
    ∃ g, Grammar.ofRules 7 categories rules [] = .ok g ∧ g.id = 7 ∧ g.rules = rules.toArray := by
  have htexts : (categories.toList.map Category.text).Nodup := by decide
  have hindex : ∃ catIds, Grammar.indexCategories 0 ∅ categories.toList = .ok catIds :=
    Grammar.indexCategories_ok (by simp) htexts
  obtain ⟨catIds, hids⟩ := hindex
  unfold Grammar.ofRules
  rw [hids]
  exact ⟨_, rfl, rfl, rfl⟩

def chart (g : Grammar) : CoarseChart Double :=
  (empty g word one).addCell ⟨0, 1⟩
    #[⟨0, ⟨0, 1⟩, .base, #[.lexical 0 0]⟩, ⟨1, ⟨0, 1⟩, .base, #[.lexical 1 0]⟩]

/-- Every step scores a zero, all but one the negative one. -/
def zeros : Model Double where
  name := "zeros"
  grammarId := 7
  refineLexical _ _ _ := .none
  refineUnary _ _ _ := .none
  refineBinary _ _ _ _ := .none
  score _ e := .ok (if e.rule = 1 then Double.plusZero else Double.minusZero)
  merit _ _ := Double.plusZero

theorem numeric_zeros : zeros.Numeric := by
  intro ctx e x hx
  obtain rfl := Except.ok.inj hx
  split
  · rfl
  · rfl

/-- The item of a category that the word has, with its score. -/
def item (cat : CatId) (x : Double) : FineItem Double :=
  ⟨cat, ⟨cat, ⟨0, 1⟩, .none⟩, x, [⟨.lexical cat 0, x, x⟩], false⟩

def fine (g : Grammar) (roots : List (Root Double)) : FineChart Double :=
  ⟨chart g, #[item 0 .minusZero, item 1 .plusZero],
    ((∅ : Std.HashMap CoarseId (List FineId)).insert 0 [0]).insert 1 [1], roots⟩

section

variable {g : Grammar} (hg : g.Indexed) (hrules : g.rules = rules.toArray)

include hg hrules

theorem unaryRules_eq (c : CatId) : g.unaryRules c = [] := by
  rw [hg.unaryRules, Grammar.idsWhere, hrules]
  rfl

theorem lexicalRule?_eq : g.lexicalRule? 0 = some 0 ∧ g.lexicalRule? 1 = some 1 := by
  rw [hg.lexicalRule?, hg.lexicalRule?, Grammar.idsWhere, Grammar.idsWhere, hrules]
  exact ⟨rfl, rfl⟩

theorem topRule?_eq : g.topRule? 0 = some 2 ∧ g.topRule? 1 = some 3 := by
  rw [hg.topRule?, hg.topRule?, Grammar.idsWhere, Grammar.idsWhere, hrules]
  exact ⟨rfl, rfl⟩

theorem build_word {tags : Supertags Double} {steps : List (CatId × CoarseStep)}
    (hsteps : (empty g word one).lexicalSteps tags 0 = steps) (hroom : (grouped ⟨0, 1⟩ .base steps).length ≤ 10)
    (hspans : ((empty g word one).addCell ⟨0, 1⟩ (grouped ⟨0, 1⟩ .base steps).toArray).spans = true) :
    build g word tags one 10 = .ok ((empty g word one).addCell ⟨0, 1⟩ (grouped ⟨0, 1⟩ .base steps).toArray) := by
  have hcell : cellItems g 0 ⟨0, 1⟩ steps = grouped ⟨0, 1⟩ .base steps := by
    rw [cellItems, unarySteps_eq_nil (unaryRules_eq hg hrules)]
    exact List.append_nil _
  have hfill : fill tags 10 (empty g word one) ⟨0, 1⟩ =
      .ok ((empty g word one).addCell ⟨0, 1⟩ (grouped ⟨0, 1⟩ .base steps).toArray) := by
    have hover : (empty g word one).stepsOver tags ⟨0, 1⟩ = steps := hsteps
    have hsize : (empty g word one : CoarseChart Double).items.size = 0 := rfl
    have hgrammar : (empty g word one : CoarseChart Double).grammar = g := rfl
    rw [fill_eq, hover, hsize, hgrammar, hcell, if_pos hroom]
  have hspansOf : spansOf word.length = [⟨0, 1⟩] := rfl
  rw [build, filled, hspansOf]
  simp [bind, Except.bind, hfill, hspans, pure, Except.pure]

theorem build_eq : build g word tags one 10 = .ok (chart g) := by
  have hsteps : (empty g word one).lexicalSteps tags 0 = [(0, .lexical 0 0), (1, .lexical 1 0)] := by
    have hgrammar : (empty g word one : CoarseChart Double).grammar = g := rfl
    have hbeta : (empty g word one : CoarseChart Double).beta = one := rfl
    have hwithin : tags.within 0 one = [⟨0, one⟩, ⟨1, one⟩] := rfl
    simp [lexicalSteps, hgrammar, hbeta, hwithin, lexicalRule?_eq hg hrules]
  refine build_word hg hrules hsteps (by decide) ?_
  have hwhole : (chart g).itemsOver (chart g).wholeSpan =
    [(0, ⟨0, ⟨0, 1⟩, .base, #[.lexical 0 0]⟩), (1, ⟨1, ⟨0, 1⟩, .base, #[.lexical 1 0]⟩)] := rfl
  have hgrammar : (chart g).grammar = g := rfl
  have hspans : (chart g).spans = true := by
    simp [spans, hwhole, Grammar.isStart, hgrammar, topRule?_eq hg hrules]
  exact hspans

omit hg hrules in
theorem eq_fine {retain : Retain} {f : FineChart Double} (hf : FineChart.build (chart g) zeros retain none = .ok f) :
    f = fine g (f.findRoots zeros) := by
  have hfill : FineChart.fill zeros retain none (FineChart.unscored (chart g)) ⟨0, 1⟩ = fine g [] := by
    cases retain <;> rfl
  have hspansOf : spansOf (chart g).sentence.length = [⟨0, 1⟩] := rfl
  conv => lhs; rw [FineChart.build_ok hf, hspansOf, List.foldl_cons, List.foldl_nil, hfill]
  rfl

theorem roots_eq {retain : Retain} {f : FineChart Double} (hf : FineChart.build (chart g) zeros retain none = .ok f) :
    f.roots = [⟨0, 2, .minusZero, .minusZero⟩, ⟨1, 3, .minusZero, .plusZero⟩] := by
  have htop := topRule?_eq hg hrules
  have hroots (roots : List (Root Double)) : (fine g roots).findRoots zeros =
      [⟨0, 2, .minusZero, .minusZero⟩, ⟨1, 3, .minusZero, .plusZero⟩] := by
    have hover : (fine g roots).coarse.itemsOver (fine g roots).coarse.wholeSpan =
      [(0, ⟨0, ⟨0, 1⟩, .base, #[.lexical 0 0]⟩), (1, ⟨1, ⟨0, 1⟩, .base, #[.lexical 1 0]⟩)] := rfl
    have hgrammar : (fine g roots).coarse.grammar = g := rfl
    have hlive : (fine g roots).liveItems 0 = [(0, item 0 .minusZero)] ∧
        (fine g roots).liveItems 1 = [(1, item 1 .plusZero)] := by
      simp [FineChart.liveItems, FineChart.liveOf, FineChart.item?, fine, Std.HashMap.getD_insert]
    have hfirst : (fine g roots).root? zeros 2 0 (item 0 .minusZero) =
      some ⟨0, 2, .minusZero, .minusZero⟩ := rfl
    have hsecond : (fine g roots).root? zeros 3 1 (item 1 .plusZero) =
      some ⟨1, 3, .minusZero, .plusZero⟩ := rfl
    simp only [FineChart.findRoots, hover, hgrammar, hlive, htop, List.flatMap_cons, List.flatMap_nil,
      List.filterMap_cons, List.filterMap_nil, hfirst, hsecond]
    rfl
  have hsame : f.roots = f.findRoots zeros := congrArg FineChart.roots (FineChart.build_ok hf)
  rw [hsame]
  conv => lhs; rw [eq_fine hf]
  exact hroots _

end

theorem kBest_one_ne_viterbi : ∃ g c f, Grammar.ofRules 7 categories rules [] = .ok g ∧
    CoarseChart.build g word tags one 10 = .ok c ∧ FineChart.build c zeros .best none = .ok f ∧
    zeros.Numeric ∧ (f.kBest 1 = [] ↔ f.viterbi? = none) ∧
    (f.kBest 1 = f.viterbi?.toList ↔
      ¬ZerosSwapped (f.roots.map Root.score) ∧ ∀ r ∈ f.roots.head?, f.Settled r.item) ∧
    f.kBest 1 ≠ f.viterbi?.toList := by
  obtain ⟨g, hg, hid, hrules⟩ := exists_grammar
  have hindexed := Grammar.indexed_ofRules hg
  have hchart := build_eq hindexed hrules
  obtain ⟨f, hf⟩ : ∃ f, FineChart.build (chart g) zeros .best none = .ok f := by
    have hgrammar : (chart g).grammar = g := rfl
    simp [FineChart.build, Grammar.check, hgrammar, hid, zeros, bind, Except.bind]
  obtain ⟨hnone, hagree⟩ := FineChart.kBest_one_iff hg hchart hf numeric_zeros
  refine ⟨g, chart g, f, hg, hchart, hf, numeric_zeros, hnone, hagree, fun hsame => ?_⟩
  refine (hagree.mp hsame).1 ?_
  rw [roots_eq hindexed hrules hf]
  exact ⟨rfl, by simp⟩

end SwappedZeros
end Categorial
