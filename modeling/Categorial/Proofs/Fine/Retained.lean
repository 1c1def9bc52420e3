import Categorial.Proofs.Fine.Truncated
import Categorial.Proofs.KBest.Agreement
set_option autoImplicit false

/-!
What the retention modes keep. One insertion behind another sorts a list, and entries of the same score stay
in their order; so a pass that keeps all edges has those of an item sorted like that, and the other modes keep
a beginning of them and change nothing else.
-/

namespace Categorial

section

variable {α β : Type} [Scalar α] {S : α → Prop}

/-- The first scores at least as much as the second. -/
def leads (score : β → α) (x y : β) : Bool := Scalar.le (score y) (score x)

variable {score : β → α}

theorem map_insertByScore {γ : Type} (f : γ → β) (x : γ) (xs : List γ) :
    (insertByScore (score ∘ f) x xs).map f = insertByScore score (f x) (xs.map f) := by
  have hrank : Categorial.rank (score ∘ f) x xs = Categorial.rank score (f x) (xs.map f) := by
    simp [Categorial.rank, turningPoint, Option.any_map]
  simp [insertByScore, hrank]

theorem map_foldl_insertByScore {γ : Type} (f : γ → β) (xs : List γ) :
    (xs.foldl (fun ys x => insertByScore (score ∘ f) x ys) []).map f =
      (xs.map f).foldl (fun ys x => insertByScore score x ys) [] := by
  induction xs using List.reverseRecOn with
  | nil => rfl
  | append_singleton xs x ih =>
    simp only [List.foldl_append, List.map_append, List.foldl_cons, List.foldl_nil, List.map_cons,
      List.map_nil, map_insertByScore, ih]

theorem pairwise_foldl_insertByScore (hS : Scalar.TotalOn S) {ps : List (β × Nat)}
    (hscores : ∀ p ∈ ps, S (score p.1)) (hps : ps.Pairwise fun p q => p.2 < q.2) :
    (ps.foldl (fun qs p => insertByScore (score ∘ Prod.fst) p qs) []).Pairwise fun p q =>
      List.zipIdxLE (leads score) p q = true := by
  induction ps using List.reverseRecOn with
  | nil => exact List.Pairwise.nil
  | append_singleton ps p ih =>
    obtain ⟨hbefore, _, hlast⟩ := List.pairwise_append.mp hps
    have hscores' : ∀ q ∈ ps, S (score q.1) := fun q hq => hscores q (by simp [hq])
    have hp : S (score p.1) := hscores p (by simp)
    have ih := ih hscores' hbefore
    have hperm := foldl_insertByScore_perm (score ∘ Prod.fst) ps
    have hdesc : Descending (score ∘ Prod.fst) _ := descending_foldl_insertByScore hS hscores'
    rw [List.foldl_append, List.foldl_cons, List.foldl_nil]
    generalize ps.foldl (fun qs p => insertByScore (score ∘ Prod.fst) p qs) [] = sorted at ih hperm hdesc
    obtain ⟨ahead, behind, rfl, heq, _, ha, hb⟩ := insertByScore_split hS p hdesc
    obtain ⟨hahead, hbehind, hacross⟩ := List.pairwise_append.mp ih
    have hplace : ∀ q ∈ ahead ++ behind, q.2 ≤ p.2 := fun q hq =>
      Nat.le_of_lt (hlast q (hperm.mem_iff.mp hq) p (by simp))
    have hpAhead : ∀ q ∈ ahead, List.zipIdxLE (leads score) q p = true := by
      intro q hq
      have hle : leads score q.1 p.1 = true := ha q hq
      simp [List.zipIdxLE, hle, hplace q (by simp [hq])]
    have hpBehind : ∀ q ∈ behind, List.zipIdxLE (leads score) p q = true := by
      intro q hq
      have hnot : leads score q.1 p.1 = false := hb q hq
      have hle : leads score p.1 q.1 = true := by
        rcases hS.total _ _ hp (hscores' q (hperm.mem_iff.mp (by simp [hq]))) with hle | hle
        · simp [leads, hle] at hnot
        · exact hle
      simp [List.zipIdxLE, hle, hnot]
    rw [heq]
    refine List.pairwise_append.mpr ⟨hahead, List.pairwise_cons.mpr ⟨hpBehind, hbehind⟩, ?_⟩
    intro q hq r hr
    rcases List.mem_cons.mp hr with rfl | hr
    · exact hpAhead q hq
    · exact hacross q hq r hr

theorem eq_of_zipIdxLE {le : β → β → Bool} {xs : List β} {p q : β × Nat} (hp : p ∈ xs.zipIdx)
    (hq : q ∈ xs.zipIdx) (hpq : List.zipIdxLE le p q = true) (hqp : List.zipIdxLE le q p = true) :
    p = q := by
  have hplace : p.2 = q.2 := by
    unfold List.zipIdxLE at hpq hqp
    split at hpq
    · rename_i hle
      split at hpq
      · rename_i hle'
        simp only [hle, hle', if_true, decide_eq_true_eq] at hpq hqp
        omega
      · rename_i hle'
        simp [hle'] at hqp
    · cases hpq
  have hp := List.mem_zipIdx_iff_getElem?.mp hp
  have hq := List.mem_zipIdx_iff_getElem?.mp hq
  rw [hplace, hq] at hp
  exact Prod.ext (Option.some.inj hp).symm hplace

open Classical in
/-- An order on all entries, with those behind that cannot be compared. It is `leads` on the others. -/
noncomputable def leadsWithin (S : α → Prop) (score : β → α) (x y : β) : Bool :=
  decide (¬S (score y) ∨ S (score x) ∧ leads score x y = true)

theorem leadsWithin_eq {x y : β} (hx : S (score x)) (hy : S (score y)) :
    leadsWithin S score x y = leads score x y := by
  simp [leadsWithin, hx, hy]

theorem leadsWithin_trans (hS : Scalar.TotalOn S) (x y z : β) (hxy : leadsWithin S score x y = true)
    (hyz : leadsWithin S score y z = true) : leadsWithin S score x z = true := by
  simp only [leadsWithin, decide_eq_true_eq] at hxy hyz ⊢
  rcases hyz with hz | ⟨hy, hyz⟩
  · exact .inl hz
  · rcases hxy with hny | ⟨hx, hxy⟩
    · exact absurd hy hny
    · exact .inr ⟨hx, hS.trans _ _ _ hyz hxy⟩

theorem leadsWithin_total (hS : Scalar.TotalOn S) (x y : β) :
    (leadsWithin S score x y || leadsWithin S score y x) = true := by
  simp only [leadsWithin, Bool.or_eq_true, decide_eq_true_eq]
  by_cases hx : S (score x)
  · by_cases hy : S (score y)
    · exact (hS.total _ _ hx hy).symm.imp (fun h => .inr ⟨hx, h⟩) fun h => .inr ⟨hy, h⟩
    · exact .inl (.inl hy)
  · exact .inr (.inl hx)

theorem mergeSort_leadsWithin {found : List β} (hfound : ∀ x ∈ found, S (score x)) :
    found.mergeSort (leadsWithin S score) = found.mergeSort (leads score) := by
  have hmap := List.map_mergeSort (f := id) fun x hx y hy =>
    (leadsWithin_eq (hfound x hx) (hfound y hy) : leadsWithin S score x y = leads score (id x) (id y))
  rwa [List.map_id, List.map_id] at hmap

theorem foldl_insertByScore_eq_mergeSort (hS : Scalar.TotalOn S) {found : List β}
    (hfound : ∀ x ∈ found, S (score x)) :
    found.foldl (fun xs x => insertByScore score x xs) [] = found.mergeSort (leads score) := by
  have hscores : ∀ p ∈ found.zipIdx, S (score p.1) := fun p hp => hfound _ (List.fst_mem_of_mem_zipIdx hp)
  have hplaces : found.zipIdx.Pairwise fun p q => p.2 < q.2 := by
    refine List.pairwise_map.mp ?_
    rw [List.zipIdx_map_snd]
    exact List.pairwise_lt_range'
  have hperm := foldl_insertByScore_perm (score ∘ Prod.fst) found.zipIdx
  have hsorted := pairwise_foldl_insertByScore hS hscores hplaces
  -- with their positions no two entries are tied, so only one order of them is sorted
  have hsame : found.zipIdx.foldl (fun qs p => insertByScore (score ∘ Prod.fst) p qs) [] =
      found.zipIdx.mergeSort (List.zipIdxLE (leadsWithin S score)) := by
    refine List.Perm.eq_of_pairwise (fun p q hp hq => ?_) (hsorted.imp_of_mem fun {p q} hp hq hpq => ?_)
      (List.pairwise_mergeSort (List.zipIdxLE_trans (leadsWithin_trans hS))
        (List.zipIdxLE_total (leadsWithin_total hS)) found.zipIdx)
      (hperm.trans (List.mergeSort_perm _ _).symm)
    · exact eq_of_zipIdxLE (hperm.mem_iff.mp hp) ((List.mergeSort_perm _ _).mem_iff.mp hq)
    · have hp := hscores p (hperm.mem_iff.mp hp)
      have hq := hscores q (hperm.mem_iff.mp hq)
      unfold List.zipIdxLE at hpq ⊢
      rwa [leadsWithin_eq hp hq, leadsWithin_eq hq hp]
  have hmap := congrArg (List.map Prod.fst) hsame
  rwa [map_foldl_insertByScore, List.zipIdx_map_fst, List.mergeSort_zipIdx, mergeSort_leadsWithin hfound] at hmap

end

namespace FineChart

variable {α : Type} [Scalar α] {S : α → Prop}

theorem kept_all_eq (hS : Scalar.TotalOn S) {es : List (FineEdge α)} (hes : ∀ e ∈ es, S e.score) :
    kept .all es = es.mergeSort (leads FineEdge.score) := by
  rw [← foldl_insertByScore_eq_mergeSort hS hes]
  cases es with
  | nil => rfl
  | cons first es => rfl

variable {c : CoarseChart α} {m : Model α} {beam : Option α} {i : FineId} {x : FineItem α}

/-- An item of a pass that keeps all edges was added at a visit, with the edges for it sorted. -/
theorem edges_of_pass (hS : Scalar.TotalOn S) (hboth : ∀ x y, S x → S y → S (Scalar.both x y))
    (hm : m.ScoresIn ⟨c.grammar, c.sentence⟩ S) (hx : (pass c m .all beam).item? i = some x) :
    ∃ v ∈ visitsOf c m .all beam, v.Adds m .all i x ∧
      x.edges = (edgesFor (v.proposals m) x.site.refinement).mergeSort (leads FineEdge.score) := by
  obtain ⟨v, hv, hadds⟩ := pass_origin hx
  have hscored := ((scored_pass _ _ hboth hm).2 v hv).1
  refine ⟨v, hv, hadds, ?_⟩
  obtain ⟨_, hitem⟩ := hadds.eq_itemOf hscored.live
  have hedges : x.edges = kept .all (edgesFor (v.proposals m) x.site.refinement) :=
    congrArg FineItem.edges hitem
  rw [hedges]
  exact kept_all_eq hS (hscored.of_mem_edgesFor hboth hm)

/-- The retention modes make charts that differ in the edges of items and in nothing else: of the edges that
`all` keeps, which are all that were proposed for the item at its visit, sorted with ties in their order,
`best` keeps the first and `kBest k` the first `k`. -/
theorem build_retained {c : CoarseChart Double} {m : Model Double} (beam : Option Double)
    (hm : m.ScoresIn ⟨c.grammar, c.sentence⟩ fun x => x.isNaN = false) :
    build c m .best beam = (build c m .all beam).map (truncate 1) ∧
    (∀ k, 0 < k → build c m (.kBest k) beam = (build c m .all beam).map (truncate k)) ∧
    ∀ f, build c m .all beam = .ok f → ∀ i x, f.item? i = some x →
      ∃ v ∈ visitsOf c m .all beam, v.Adds m .all i x ∧
        x.edges = (edgesFor (v.proposals m) x.site.refinement).mergeSort (leads FineEdge.score) := by
  have hboth : ∀ x y : Double, x.isNaN = false → y.isNaN = false → (Scalar.both x y).isNaN = false :=
    fun _ _ => Double.isNaN_both
  refine ⟨build_limit Double.totalOn hboth hm rfl Nat.one_pos beam,
    fun k hk => build_limit Double.totalOn hboth hm rfl hk beam, fun f hf i x hx => ?_⟩
  rw [build_ok hf] at hx
  exact edges_of_pass Double.totalOn hboth hm hx

end FineChart

namespace TwoWays

/-! One word with two categories, from each of which a sentence comes by a unary rule. -/

open CoarseChart
open SwappedZeros (word one)

def categories : Array Category := #[.atom "S" none, .atom "NP" none, .atom "N" none]

def rules : List Rule :=
  [⟨0, .lexical, .lexical, 1, .terminal, 1⟩, ⟨1, .lexical, .lexical, 2, .terminal, 1⟩,
    ⟨2, .unary, .typeChange, 0, .unary 1, 1⟩, ⟨3, .unary, .typeChange, 0, .unary 2, 1⟩,
    ⟨4, .top, .top, 0, .unary 0, 1⟩]

theorem exists_grammar :
    ∃ g, Grammar.ofRules 7 categories rules [] = .ok g ∧ g.id = 7 ∧ g.rules = rules.toArray := by
  obtain ⟨catIds, hids⟩ : ∃ catIds, Grammar.indexCategories 0 ∅ categories.toList = .ok catIds :=
    Grammar.indexCategories_ok (by simp) (by decide)
  unfold Grammar.ofRules
  rw [hids]
  exact ⟨_, rfl, rfl, rfl⟩

def clause : CoarseItem := ⟨0, ⟨0, 1⟩, .unary, #[.unary 2 0, .unary 3 1]⟩

section

variable {α : Type}

def chart (g : Grammar) (beta : α) : CoarseChart α :=
  (empty g word beta).addCell ⟨0, 1⟩
    #[⟨1, ⟨0, 1⟩, .base, #[.lexical 0 0]⟩, ⟨2, ⟨0, 1⟩, .base, #[.lexical 1 0]⟩, clause]

/-- All steps are free but for that to the second category of the word. -/
def priced (free price : α) : Model α where
  name := "priced"
  grammarId := 7
  refineLexical _ _ _ := .none
  refineUnary _ _ _ := .none
  refineBinary _ _ _ _ := .none
  score _ e := .ok (if e.rule = 1 then price else free)
  merit _ _ := free

def nounPhrase (free : α) : FineItem α := ⟨0, ⟨1, ⟨0, 1⟩, .none⟩, free, [⟨.lexical 0 0, free, free⟩], false⟩

def noun (price : α) : FineItem α := ⟨1, ⟨2, ⟨0, 1⟩, .none⟩, price, [⟨.lexical 1 0, price, price⟩], false⟩

def sentence (free : α) (edges : List (FineEdge α)) : FineItem α := ⟨2, ⟨0, ⟨0, 1⟩, .none⟩, free, edges, false⟩

def fine (g : Grammar) (beta free price : α) (edges : List (FineEdge α)) : FineChart α :=
  ⟨chart g beta, #[nounPhrase free, noun price, sentence free edges],
    (((∅ : Std.HashMap CoarseId (List FineId)).insert 0 [0]).insert 1 [1]).insert 2 [2], []⟩

/-- The sentence is refined once, with those of its two edges that are kept. -/
theorem fill_unscored [Scalar α] {free price : α} (hfree : Scalar.both free free = free)
    (hprice : Scalar.both free price = price) (g : Grammar) (beta : α) {retain : Retain} {edges : List (FineEdge α)}
    (hedges : retainEdge retain [⟨.unary 2 0, free, free⟩] ⟨.unary 3 1, free, price⟩ = edges)
    (hhead : edges.head?.elim free FineEdge.score = free) :
    FineChart.fill (priced free price) retain none (FineChart.unscored (chart g beta)) ⟨0, 1⟩ =
      fine g beta free price edges := by
  have hlevels : FineChart.levels ((FineChart.unscored (chart g beta)).coarse.itemsOver ⟨0, 1⟩) =
      [(0, ⟨1, ⟨0, 1⟩, .base, #[.lexical 0 0]⟩), (1, ⟨2, ⟨0, 1⟩, .base, #[.lexical 1 0]⟩), (2, clause)] := rfl
  have hfirst : FineChart.expand (priced free price) retain (FineChart.unscored (chart g beta))
      (0, ⟨1, ⟨0, 1⟩, .base, #[.lexical 0 0]⟩) =
        ⟨chart g beta, #[nounPhrase free], (∅ : Std.HashMap CoarseId (List FineId)).insert 0 [0], []⟩ := rfl
  have hsecond : FineChart.expand (priced free price) retain
      ⟨chart g beta, #[nounPhrase free], (∅ : Std.HashMap CoarseId (List FineId)).insert 0 [0], []⟩
      (1, ⟨2, ⟨0, 1⟩, .base, #[.lexical 1 0]⟩) = ⟨chart g beta, #[nounPhrase free, noun price],
        ((∅ : Std.HashMap CoarseId (List FineId)).insert 0 [0]).insert 1 [1], []⟩ := rfl
  have hrefine : FineChart.refine ⟨chart g beta, #[nounPhrase free, noun price],
      ((∅ : Std.HashMap CoarseId (List FineId)).insert 0 [0]).insert 1 [1], []⟩ (priced free price) retain 2 clause =
        [sentence free edges] := by
    simp [FineChart.refine, clause, FineChart.edgesOf, FineChart.liveItems, FineChart.liveOf,
      Std.HashMap.getD_insert, FineChart.item?, FineChart.edge?, FineChart.addEdge, priced, Expansion.rule,
      nounPhrase, noun, sentence, hfree, hprice, hedges, hhead]
  simp only [FineChart.fill]
  rw [hlevels, List.foldl_cons, hfirst, List.foldl_cons, hsecond, List.foldl_cons, FineChart.expand, hrefine]
  rfl

end

def minusOne : Double := ⟨0xBFF0000000000000⟩

def model : Model Double := priced .plusZero minusOne

theorem numeric_model : model.Numeric := by
  intro ctx e x hx
  obtain rfl := Except.ok.inj hx
  split
  · rfl
  · rfl

theorem both_free : Scalar.both Double.plusZero Double.plusZero = Double.plusZero := by decide +kernel

theorem both_price : Scalar.both Double.plusZero minusOne = minusOne := by decide +kernel

theorem build_retained_two_ways : ∃ g f, Grammar.ofRules 7 categories rules [] = .ok g ∧
    model.ScoresIn ⟨g, word⟩ (fun x => x.isNaN = false) ∧
    FineChart.build (chart g one) model .all none = .ok f ∧ f.item? 2 =
      some (sentence .plusZero [⟨.unary 2 0, .plusZero, .plusZero⟩, ⟨.unary 3 1, .plusZero, minusOne⟩]) ∧
    FineChart.build (chart g one) model .best none = .ok (f.truncate 1) ∧
    FineChart.build (chart g one) model (.kBest 1) none = .ok (f.truncate 1) ∧
    (f.truncate 1).item? 2 = some (sentence .plusZero [⟨.unary 2 0, .plusZero, .plusZero⟩]) := by
  obtain ⟨g, hg, hid, _⟩ := exists_grammar
  have hm : model.ScoresIn ⟨(chart g one).grammar, (chart g one).sentence⟩ fun x => x.isNaN = false :=
    fun e x hx => numeric_model _ e x hx
  obtain ⟨f, hf⟩ := FineChart.exists_build (m := model) (chart g one) hid.symm .all none
  obtain ⟨hbest, hkBest, _⟩ := FineChart.build_retained none hm
  have hedges : retainEdge .all [⟨.unary 2 0, Double.plusZero, Double.plusZero⟩] ⟨.unary 3 1, .plusZero, minusOne⟩ =
      [⟨.unary 2 0, .plusZero, .plusZero⟩, ⟨.unary 3 1, .plusZero, minusOne⟩] :=
    insertByScore_append FineEdge.score _ [_] [] (by simp; decide) (by simp)
  have hitem : f.item? 2 =
      some (sentence .plusZero [⟨.unary 2 0, .plusZero, .plusZero⟩, ⟨.unary 3 1, .plusZero, minusOne⟩]) := by
    have hspans : spansOf (chart g one).sentence.length = [⟨0, 1⟩] := rfl
    have hfill := fill_unscored both_free both_price g one hedges rfl
    rw [FineChart.build_ok hf, hspans, List.foldl_cons, List.foldl_nil, model, hfill]
    rfl
  refine ⟨g, f, hg, hm, hf, hitem, ?_, ?_, ?_⟩
  · rw [hbest, hf]
    rfl
  · rw [hkBest 1 Nat.one_pos, hf]
    rfl
  · rw [FineChart.item?_truncate, hitem]
    rfl

end TwoWays

end Categorial
