import Categorial.Proofs.Double.Machine
import Categorial.Proofs.Fine.Beam
import Categorial.Proofs.Fine.Numbers
import Categorial.Proofs.Fine.Retained
set_option autoImplicit false

/-!
What holds of every fine chart, whatever edges it keeps and whatever its beam removes: an item is told by its
coarse item and its refinement, an edge is over earlier items that make up the span of its own, scores are
those of the parts, the live items are the unmarked ones, and the beam spares the best of every span.
-/

namespace Categorial

inductive FineStep.Covers : FineStep → List Span → Span → Prop where
  | lexical {rule : RuleId} {word : Nat} : Covers (.lexical rule word) [] (Span.word word)
  | unary {rule : RuleId} {child : FineId} {span : Span} : Covers (.unary rule child) [span] span
  | binary {rule : RuleId} {left right : FineId} {start mid stop : Nat} : start < mid → mid < stop →
      Covers (.binary rule left right) [⟨start, mid⟩, ⟨mid, stop⟩] ⟨start, stop⟩

namespace FineChart

variable {α : Type} [Scalar α]

/-- An edge of an item: it takes earlier items, whose spans make up the item's, and its score is the local one
and those of the items that it takes. -/
def Composed (f : FineChart α) (i : FineId) (x : FineItem α) (e : FineEdge α) : Prop :=
  ∃ parts : List (FineItem α),
    List.Forall₂ (fun child y => child < i ∧ f.item? child = some y) e.step.children parts ∧
      e.step.Covers (parts.map fun y => y.site.span) x.site.span ∧
      e.score = FineStep.total e.localScore (parts.map FineItem.score)

structure Coherent (f : FineChart α) (m : Model α) : Prop where
  once : ∀ i j x y, f.item? i = some x → f.item? j = some y → x.coarse = y.coarse →
    x.site.refinement = y.site.refinement → i = j
  composed : ∀ i x, f.item? i = some x → ∀ e ∈ x.edges, f.Composed i x e
  descending : ∀ i x, f.item? i = some x → Descending FineEdge.score x.edges
  first : ∀ i x, f.item? i = some x → ∃ e rest, x.edges = e :: rest ∧ x.score = e.score
  /-- The live items of a coarse item are its unmarked ones, in the order of their creation. -/
  live : ∀ id, (∀ i, i ∈ f.liveOf id ↔ ∃ x, f.item? i = some x ∧ x.coarse = id ∧ x.pruned = false) ∧
    (f.liveOf id).Pairwise (· < ·)
  /-- A binary edge takes no marked item, and no root is one. -/
  standing : (∀ i x, f.item? i = some x → ∀ e ∈ x.edges, ∀ rule l r, e.step = .binary rule l r →
    f.Stands l ∧ f.Stands r) ∧ ∀ r ∈ f.roots, f.Stands r.item
  /-- No item over a span has a greater merit than the best, and an unmarked item attains it, unless it is the
  logarithm of zero. -/
  best : ∀ span, (∀ i x, f.item? i = some x → x.site.span = span →
    Scalar.lt (f.bestOver m span) (f.meritOf m x) = false) ∧ f.KeepsBest m span

variable {f : FineChart α} {m : Model α} {retain : Retain} {c : CoarseChart α} {tags : Supertags α}
  {done : List CoarseId}

theorem Built.covers (hs : Sound c m retain done f) (hc : c.Saturated tags) (hg : c.grammar.Indexed)
    {span : Span} (hwithin : span.Within c.sentence.length) {id : CoarseId} {source : CoarseItem}
    (hmem : (id, source) ∈ c.itemsOver span) {site : Site} {e : FineEdge α} (h : f.Built m source site e)
    {parts : List (FineItem α)}
    (hparts : List.Forall₂ (fun child y => f.item? child = some y) e.step.children parts) :
    e.step.Covers (parts.map fun y => y.site.span) span := by
  cases h with
  | lexical hstep =>
    cases hparts
    rw [((hc.mem_steps hg hwithin hmem).mp hstep).span_of_lexical]
    exact .lexical
  | unary hstep hchild =>
    obtain ⟨y, _, hy, hnil, rfl⟩ := List.forall₂_cons_left_iff.mp hparts
    cases hnil
    cases hchild.1.symm.trans hy
    obtain ⟨_, hx⟩ := ((hc.mem_steps hg hwithin hmem).mp hstep).child_of_unary
    rw [List.map_cons, List.map_nil, hs.span_eq hc hwithin hx hchild]
    exact .unary
  | binary hstep hl hr =>
    obtain ⟨y, _, hy, hrest, rfl⟩ := List.forall₂_cons_left_iff.mp hparts
    obtain ⟨z, _, hz, hnil, rfl⟩ := List.forall₂_cons_left_iff.mp hrest
    cases hnil
    cases hl.1.symm.trans hy
    cases hr.1.symm.trans hz
    obtain ⟨mid, _, _, hlt, hlt', hleft, hright⟩ :=
      ((hc.mem_steps hg hwithin hmem).mp hstep).children_of_binary
    have hfront : Span.Within c.sentence.length ⟨span.start, mid⟩ :=
      ⟨hlt, (Nat.le_of_lt hlt').trans hwithin.2⟩
    have hback : Span.Within c.sentence.length ⟨mid, span.stop⟩ := ⟨hlt', hwithin.2⟩
    rw [List.map_cons, List.map_cons, List.map_nil, hs.span_eq hc hfront hleft hl,
      hs.span_eq hc hback hright hr]
    exact .binary hlt hlt'

theorem Sound.composed (hs : Sound c m retain ((cellsOf c (spansOf c.sentence.length)).map Prod.fst) f)
    (hc : c.Saturated tags) (hg : c.grammar.Indexed) {i : FineId} {x : FineItem α}
    (hx : f.item? i = some x) {e : FineEdge α} (he : e ∈ x.edges) : f.Composed i x e := by
  obtain ⟨span, source, _, hwithin, hmem, hmade⟩ := hs.exists_source hx
  obtain ⟨hbuilt, hbelow⟩ := hmade.built_of_mem he
  obtain ⟨parts, hparts⟩ : ∃ parts : List (FineItem α),
      List.Forall₂ (fun child y => child < i ∧ f.item? child = some y) e.step.children parts := by
    refine exists_forall₂ fun child hchild => ?_
    obtain ⟨y, hy⟩ := hbuilt.exists_child hchild
    exact ⟨y, hbelow child hchild, hy⟩
  refine ⟨parts, hparts, ?_, ?_⟩
  · rw [hs.span_eq hc hwithin hmem ⟨hx, rfl⟩]
    exact hbuilt.covers hs hc hg hwithin hmem (hparts.imp fun _ _ h => h.2)
  · exact hbuilt.score_eq (List.forall₂_map_right_iff.mpr (hparts.imp fun _ y h => ⟨y, h.2, rfl⟩))

/-- The laws of scores that a pass relies on: those of the steps are comparable and sums of them stay so, no
number is larger for the width of the beam, and a greatest number has none above it. -/
structure Lawful (m : Model α) (ctx : Context) (beam : Option α) (S : α → Prop) : Prop where
  totalOn : Scalar.TotalOn S
  both : ∀ x y, S x → S y → S (Scalar.both x y)
  scores : m.ScoresIn ctx S
  bottom : Scalar.isBottom (Scalar.bottom : α) = true
  width : ∀ width, beam = some width → ∀ x : α, Scalar.lt x (x + Scalar.log width) = false
  greatest : ∀ xs : List α, ∀ x ∈ xs, Scalar.lt (xs.foldl Scalar.max Scalar.bottom) x = false

theorem coherent_of_lawful {beam : Option α} {S : α → Prop}
    (hlaws : Lawful m ⟨c.grammar, c.sentence⟩ beam S) (hc : c.Saturated tags) (hg : c.grammar.Indexed)
    (h : build c m retain beam = .ok f) : f.Coherent m := by
  have hs := sound_build hc h
  have hscores : m.ScoresIn f.context S := hs.context_eq ▸ hlaws.scores
  obtain ⟨htidy, hbest⟩ : f.Tidy ∧ ∀ s, f.KeepsBest m s := by
    have hspans : (spansOf c.sentence.length).Nodup := (spansOf_pairwise _).imp fun h => h.1
    rw [build_ok h]
    obtain ⟨htidy, hbest⟩ := tidy_foldl_fill hc hg hlaws.bottom hlaws.width
      (fun s => mem_spansOf.mp) hspans (nodup_cellsOf hc)
    exact ⟨htidy.setRoots _, hbest⟩
  have hroots : f.roots = f.findRoots m := congrArg FineChart.roots (build_ok h)
  refine ⟨hs.once, fun i x hx e he => hs.composed hc hg hx he,
    fun i x hx => hs.descending_edges hlaws.both hscores hlaws.totalOn hx, fun i x hx => ?_,
    fun id => ⟨fun i => ?_, htidy.ascending id⟩, ⟨htidy.standing, fun r hr => ?_⟩,
    fun span => ⟨fun i x hx hover => ?_, hbest span⟩⟩
  · obtain ⟨_, _, hmade⟩ := hs.made i x hx
    exact hmade.exists_first
  · rw [htidy.live]
    simp only [Has, and_assoc]
  · rw [hroots, mem_findRoots] at hr
    obtain ⟨_, _, rule, i, x, _, _, hx, hroot⟩ := hr
    obtain ⟨_, _, _, rfl⟩ := root?_eq_some.mp hroot
    exact htidy.stands (mem_liveItems.mp hx).1
  · exact hlaws.greatest _ _ (mem_meritsOver.mpr ⟨i, x, hx, hover, rfl⟩)

open Double in
/-- A fine pass of a model whose steps score numbers, with any way to keep edges and with no beam or one of a
width between zero and one. -/
theorem build_coherent {ln : Double → Double} {g : Grammar} {s : Sentence} {tags : Supertags (Machine ln)}
    {beta : Machine ln} {maxItems gid : Nat} {categories : Array Category} {rules : List Rule}
    {markups : List (CatId × Markup)} {c : CoarseChart (Machine ln)} {m : Model (Machine ln)}
    {beam : Option (Machine ln)}
    (hln : ∀ x : Double, Scalar.lt Scalar.zero x = true → Scalar.lt x Scalar.one = true →
      Scalar.le (ln x) Scalar.zero = true)
    (hg : Grammar.ofRules gid categories rules markups = .ok g)
    (hc : CoarseChart.build g s tags beta maxItems = .ok c) (hm : m.grammarId = g.id)
    (hscores : m.ScoresIn ⟨g, s⟩ fun x => Double.isNaN x = false)
    (hbeam : ∀ width, beam = some width →
      Scalar.lt Scalar.zero width = true ∧ Scalar.lt width Scalar.one = true) (retain : Retain) :
    ∃ f, build c m retain beam = .ok f ∧ f.Coherent m := by
  obtain ⟨rfl, rfl, hsat, _⟩ := CoarseChart.build_ok hc
  obtain ⟨f, hf⟩ := exists_build c hm retain beam
  have hlaws : Lawful m ⟨c.grammar, c.sentence⟩ beam fun x => Double.isNaN x = false :=
    { totalOn := ⟨Double.totalOn.trans, Double.totalOn.total, Double.totalOn.lt_iff⟩
      both := fun _ _ hx hy => Double.isNaN_both hx hy
      scores := hscores
      bottom := Double.isBottom_iff.mpr rfl
      width := fun width hwidth x => by
        obtain ⟨hpos, hone⟩ := hbeam width hwidth
        exact lt_add_of_le_zero (hln width hpos hone)
      greatest := fun xs => (foldl_max_spec xs).2 }
  exact ⟨f, hf, coherent_of_lawful hlaws hsat (Grammar.indexed_ofRules hg) hf⟩

end FineChart

namespace TwoWays

open CoarseChart Double
open SwappedZeros (word one)

def logHalf (_ : Double) : Double := ⟨0xBFE62E42FEFA39EF⟩

def half : Machine logHalf := (⟨0x3FE0000000000000⟩ : Double)

def tags : Supertags Double := ⟨[[⟨1, one⟩, ⟨2, one⟩]]⟩

theorem build_eq {g : Grammar} (hg : g.Indexed) (hrules : g.rules = rules.toArray) :
    CoarseChart.build g word tags one 10 = .ok (chart g one) := by
  have hlexical : g.lexicalRule? 1 = some 0 ∧ g.lexicalRule? 2 = some 1 := by
    rw [hg.lexicalRule?, hg.lexicalRule?, Grammar.idsWhere, Grammar.idsWhere, hrules]
    exact ⟨rfl, rfl⟩
  have hunary : g.unaryRules 1 = [2] ∧ g.unaryRules 2 = [3] := by
    rw [hg.unaryRules, hg.unaryRules, Grammar.idsWhere, Grammar.idsWhere, hrules]
    exact ⟨rfl, rfl⟩
  have htop : g.topRule? 0 = some 4 := by
    rw [hg.topRule?, Grammar.idsWhere, hrules]
    rfl
  have hcombine : g.combineUnary? 2 1 = some 0 ∧ g.combineUnary? 3 2 = some 0 := by
    simp [Grammar.combineUnary?, Grammar.rule?, hrules, rules]
  have hgrammar : (empty g word one).grammar = g := rfl
  have hsteps : (empty g word one).stepsOver tags ⟨0, 1⟩ = [(1, .lexical 0 0), (2, .lexical 1 0)] := by
    have hbeta : (empty g word one).beta = one := rfl
    have hwithin : tags.within 0 one = [⟨1, one⟩, ⟨2, one⟩] := rfl
    simp [stepsOver, Span.length, lexicalSteps, hgrammar, hbeta, hwithin, hlexical]
  have hunarySteps : unarySteps g 0 (grouped ⟨0, 1⟩ .base [(1, .lexical 0 0), (2, .lexical 1 0)]).toArray =
      [(0, .unary 2 0), (0, .unary 3 1)] := by
    have hgrouped : grouped ⟨0, 1⟩ .base [(1, .lexical 0 0), (2, .lexical 1 0)] =
        [⟨1, ⟨0, 1⟩, .base, #[.lexical 0 0]⟩, ⟨2, ⟨0, 1⟩, .base, #[.lexical 1 0]⟩] := rfl
    simp [hgrouped, unarySteps, hunary, hcombine]
  have hfill : fill tags 10 (empty g word one) ⟨0, 1⟩ = .ok (chart g one) := by
    have hsize : (empty g word one).items.size = 0 := rfl
    rw [fill_eq, hsteps, hsize, hgrammar, cellItems, hunarySteps]
    rfl
  have hspans : (chart g one).spans = true := by
    have hwhole : (chart g one).itemsOver (chart g one).wholeSpan =
        [(0, ⟨1, ⟨0, 1⟩, .base, #[.lexical 0 0]⟩), (1, ⟨2, ⟨0, 1⟩, .base, #[.lexical 1 0]⟩), (2, clause)] := rfl
    have hsame : (chart g one).grammar = g := rfl
    simp [spans, hwhole, Grammar.isStart, hsame, clause, htop]
  have hspansOf : spansOf word.length = [⟨0, 1⟩] := rfl
  rw [CoarseChart.build, filled, hspansOf]
  simp [bind, Except.bind, hfill, hspans, pure, Except.pure]

theorem items_prune_fine {α : Type} [Scalar α] {free price beam : α} (hfree : Scalar.both free free = free)
    (hprice : Scalar.both price free = price) (hbest : [free, price, free].foldl Scalar.max Scalar.bottom = free)
    (hbottom : Scalar.isBottom free = false) (hstays : Scalar.lt free (free + Scalar.log beam) = false)
    (hfalls : Scalar.lt price (free + Scalar.log beam) = true) (g : Grammar) (beta : α) (edges : List (FineEdge α)) :
    ((fine g beta free price edges).prune (priced free price) [0, 1, 2] 0 beam).items =
      #[nounPhrase free, { noun price with pruned := true }, sentence free edges] := by
  let f := fine g beta free price edges
  have hmerits : f.meritOf (priced free price) (nounPhrase free) = free ∧
      f.meritOf (priced free price) (noun price) = price ∧
      f.meritOf (priced free price) (sentence free edges) = free := ⟨hfree, hprice, hfree⟩
  obtain ⟨hfirst, hsecond, hthird⟩ := hmerits
  have hthreshold : f.threshold? (priced free price) 0 beam = some (free + Scalar.log beam) := by
    have hitems : (f.items.drop 0).toList = [nounPhrase free, noun price, sentence free edges] := rfl
    rw [FineChart.threshold?, hitems]
    simp only [List.map_cons, List.map_nil, hfirst, hsecond, hthird, hbest, hbottom]
    rfl
  have hfallen : (List.range' 0 (f.items.size - 0)).filter (fun i => (f.items[i]?).any fun item =>
      Scalar.lt (f.meritOf (priced free price) item) (free + Scalar.log beam)) = [1] := by
    have hrange : List.range' 0 (f.items.size - 0) = [0, 1, 2] := rfl
    have hget : f.items[0]? = some (nounPhrase free) ∧ f.items[1]? = some (noun price) ∧
        f.items[2]? = some (sentence free edges) := ⟨rfl, rfl, rfl⟩
    rw [hrange]
    simp [hget, hfirst, hsecond, hthird, hstays, hfalls]
  simp only [FineChart.prune, f] at hthreshold hfallen ⊢
  rw [hthreshold]
  simp only [hfallen]
  rfl

theorem items_fill_best {α : Type} [Scalar α] {free price beam : α} (hfree : Scalar.both free free = free)
    (hprice : Scalar.both free price = price) (hmerit : Scalar.both price free = price)
    (hlt : Scalar.lt free price = false) (hbest : [free, price, free].foldl Scalar.max Scalar.bottom = free)
    (hbottom : Scalar.isBottom free = false) (hstays : Scalar.lt free (free + Scalar.log beam) = false)
    (hfalls : Scalar.lt price (free + Scalar.log beam) = true) (g : Grammar) (beta : α) :
    (FineChart.fill (priced free price) .best (some beam) (FineChart.unscored (chart g beta)) ⟨0, 1⟩).items =
      #[nounPhrase free, { noun price with pruned := true }, sentence free [⟨.unary 2 0, free, free⟩]] := by
  have hedges : retainEdge .best [⟨.unary 2 0, free, free⟩] ⟨.unary 3 1, free, price⟩ =
      [⟨.unary 2 0, free, free⟩] := by
    simp [retainEdge, hlt]
  have hfill := fill_unscored hfree hprice g beta hedges rfl
  rw [← items_prune_fine hfree hmerit hbest hbottom hstays hfalls g beta, ← hfill]
  rfl

theorem items_fill_half (g : Grammar) :
    (@FineChart.fill (Machine logHalf) _ model .best (some half) (.unscored (chart g one)) ⟨0, 1⟩).items =
      #[nounPhrase plusZero, { noun minusOne with pruned := true },
        sentence plusZero [⟨.unary 2 0, plusZero, plusZero⟩]] :=
  @items_fill_best Double (scalar logHalf) plusZero minusOne half (by decide +kernel) (by decide +kernel)
    (by decide +kernel) (by decide +kernel) (by decide +kernel) (by decide +kernel) (by decide +kernel)
    (by decide +kernel) g one

theorem build_coherent_two_ways : ∃ g f, Grammar.ofRules 7 categories rules [] = .ok g ∧
    @CoarseChart.build (Machine logHalf) _ g word tags one 10 = .ok (chart g one) ∧ model.grammarId = g.id ∧
    (∀ x : Double, Scalar.lt Scalar.zero x = true → Scalar.lt x Scalar.one = true →
      Scalar.le (logHalf x) Scalar.zero = true) ∧
    @Model.ScoresIn (Machine logHalf) model ⟨g, word⟩ (fun x => Double.isNaN x = false) ∧
    Scalar.lt Scalar.zero half = true ∧ Scalar.lt half Scalar.one = true ∧
    @FineChart.build (Machine logHalf) _ (chart g one) model .best (some half) = .ok f ∧ f.Coherent model ∧
    f.item? 1 = some { noun minusOne with pruned := true } ∧
    f.item? 2 = some (sentence plusZero [⟨.unary 2 0, plusZero, plusZero⟩]) := by
  obtain ⟨g, hg, hid, hrules⟩ := exists_grammar
  have hbuild : @CoarseChart.build (Machine logHalf) _ g word tags one 10 = .ok (chart g one) :=
    build_eq (Grammar.indexed_ofRules hg) hrules
  have hln : ∀ x : Double, Scalar.lt Scalar.zero x = true → Scalar.lt x Scalar.one = true →
      Scalar.le (logHalf x) Scalar.zero = true := by
    have hlog : Scalar.le (logHalf one) Scalar.zero = true := by decide +kernel
    exact fun _ _ _ => hlog
  have hscores : @Model.ScoresIn (Machine logHalf) model ⟨g, word⟩ fun x => Double.isNaN x = false :=
    fun e x hx => numeric_model _ e x hx
  have hpos : Scalar.lt Scalar.zero half = true := rfl
  have hone : Scalar.lt half Scalar.one = true := rfl
  have hbeam : ∀ width, some half = some width →
      Scalar.lt Scalar.zero width = true ∧ Scalar.lt width Scalar.one = true := by
    rintro _ ⟨⟩
    exact ⟨hpos, hone⟩
  obtain ⟨f, hf, hcoherent⟩ := FineChart.build_coherent hln hg hbuild hid.symm hscores hbeam .best
  have hitems : f.items = #[nounPhrase plusZero, { noun minusOne with pruned := true },
      sentence plusZero [⟨.unary 2 0, plusZero, plusZero⟩]] := by
    conv => lhs; rw [FineChart.build_ok hf]
    exact items_fill_half g
  refine ⟨g, f, hg, hbuild, hid.symm, hln, hscores, hpos, hone, hf, hcoherent, ?_, ?_⟩
  · rw [FineChart.item?, hitems]
    rfl
  · rw [FineChart.item?, hitems]
    rfl

end TwoWays

end Categorial
