import Categorial.Proofs.Coarse.Licensed
import Categorial.Proofs.KBest.Members
import Categorial.Proofs.KBest.Scores
set_option autoImplicit false

/-!
What a chart gives as its best derivation or among its best ones is an analysis of the sentence, whatever
edges are kept, whatever the beam removes and whatever the scores are. On exact scores it comes with the score
that the model gives it.
-/

namespace Categorial

namespace FineChart

section

variable {α : Type} [Scalar α]

/-- The chart gives the parse as its best one, or among its best ones. -/
def Gives (f : FineChart α) (p : Parse α) : Prop := f.viterbi? = some p ∨ ∃ k, p ∈ f.kBest k

omit [Scalar α] in
theorem exists_root_of_viterbi? {f : FineChart α} {p : Parse α} (h : f.viterbi? = some p) :
    ∃ r rest, f.roots = r :: rest := by
  cases hroots : f.roots with
  | nil => simp [viterbi?, hroots] at h
  | cons r rest => exact ⟨r, rest, rfl⟩

theorem exists_rank_of_kBest {f : FineChart α} {k : Nat} {p : Parse α} (h : p ∈ f.kBest k) :
    ∃ j, p ∈ (rank (j + 1) (f.rootEdges (f.rankings (j + 1)))).toList := by
  rw [kBest, Ranking.take_eq] at h
  cases k with
  | zero => simp at h
  | succ j => exact ⟨j, List.mem_of_mem_take h⟩

variable {c : CoarseChart α} {m : Model α} {f : FineChart α} {tags : Supertags α} {retain : Retain}

theorem exists_root_of_gives
    (hs : Sound c m retain ((cellsOf c (spansOf c.sentence.length)).map Prod.fst) f)
    (hc : c.Saturated tags) (hg : c.grammar.Indexed)
    (hbottom : Scalar.isBottom (Scalar.bottom : α) = true) (hroots : f.roots = f.findRoots m)
    {p : Parse α} (h : f.Gives p) : ∃ r ∈ f.roots, ∃ y, f.Under m r.item p.tree y := by
  rcases h with hviterbi | ⟨k, hk⟩
  · obtain ⟨r, rest, hcons⟩ := exists_root_of_viterbi? hviterbi
    obtain ⟨t, y, hgiven, _, hunder, _⟩ := viterbi?_of_cons hs hc hg hroots hcons
    cases hviterbi.symm.trans hgiven
    exact ⟨r, by simp [hcons], y, hunder⟩
  · obtain ⟨j, hj⟩ := exists_rank_of_kBest hk
    have hranking : ∀ r ∈ f.roots, ∃ ranking, (f.rankings (j + 1))[r.item]? = some ranking ∧
        ranking.head? ≠ none ∧ ∀ q ∈ ranking.toList, ∃ y, f.Under m r.item q.tree y := by
      intro r hr
      obtain ⟨_, _, x, _, _, hx, _, hscore, hpossible⟩ := hs.root_of_mem hroots hr
      obtain ⟨ranking, hget, hhead, hunder⟩ := exists_ranking hs hc hg hbottom j r.item hx.1
      rw [hscore] at hpossible
      exact ⟨ranking, hget, hhead (not_isBottom_of_both hbottom hpossible).2, hunder⟩
    obtain ⟨e, he, picked, hpicked, htree⟩ := makes_of_mem_rank (fun e he _ ranking hmem => by
      obtain ⟨r, hr, rfl⟩ := List.mem_map.mp he
      obtain ⟨ranking', hget, hhead, _⟩ := hranking r hr
      rw [List.mem_singleton.mp hmem, hget]
      exact hhead) hj
    obtain ⟨r, hr, rfl⟩ := List.mem_map.mp he
    obtain ⟨ranking, hget, _, hunder⟩ := hranking r hr
    obtain ⟨q, _, hq, hnil, rfl⟩ := List.forall₂_cons_left_iff.mp hpicked
    cases hnil
    rw [hget] at hq
    rw [htree]
    exact ⟨r, hr, hunder q hq⟩

end

theorem scoreDerivation_of_gives {c : CoarseChart EReal} {m : Model EReal} {f : FineChart EReal}
    {tags : Supertags EReal} {retain : Retain}
    (hs : Sound c m retain ((cellsOf c (spansOf c.sentence.length)).map Prod.fst) f)
    (hc : c.Saturated tags) (hg : c.grammar.Indexed) (hroots : f.roots = f.findRoots m) {p : Parse EReal}
    (h : f.Gives p) : m.scoreDerivation f.context p.tree = .ok p.score := by
  have hderivation : ∀ {r : Root EReal}, r ∈ f.roots → ∀ {t : Derivation} {y : EReal},
      f.Under m r.item t y → m.scoreDerivation f.context t = .ok (r.localScore + y) := by
    intro r hr t y hunder
    obtain ⟨_, _, _, _, _, hx, hlocal, _⟩ := hs.root_of_mem hroots hr
    exact (hs.packed_of_top hroots hr hx.1 hunder hlocal).2
  rcases h with hviterbi | ⟨k, hk⟩
  · obtain ⟨r, rest, hcons⟩ := exists_root_of_viterbi? hviterbi
    obtain ⟨t, y, hgiven, _, hunder, hscore⟩ := viterbi?_of_cons hs hc hg hroots hcons
    cases hviterbi.symm.trans hgiven
    rw [hscore, ExactScalar.both_eq]
    exact hderivation (by simp [hcons]) hunder
  · obtain ⟨j, hj⟩ := exists_rank_of_kBest hk
    have hranking : ∀ r ∈ f.roots, ∃ x ranking, (f.rankings (j + 1))[r.item]? = some ranking ∧
        f.RanksUnder m r.item x ranking ∧ r.score = r.localScore + x.score := by
      intro r hr
      obtain ⟨_, _, x, _, _, hx, _, hscore, _⟩ := hs.root_of_mem hroots hr
      obtain ⟨ranking, hget, hranks⟩ := ranksUnder_rankings hs hc hg j r.item hx.1
      exact ⟨x, ranking, hget, hranks, by rw [hscore, ExactScalar.both_eq]⟩
    have hsound : ∀ e ∈ f.rootEdges (f.rankings (j + 1)), e.Sound := by
      intro e he
      obtain ⟨r, hr, rfl⟩ := List.mem_map.mp he
      obtain ⟨x, ranking, hget, hranks, hscore⟩ := hranking r hr
      simp only [hget, Option.getD_some]
      constructor
      · intro ranking' hmem
        rw [List.mem_singleton.mp hmem]
        exact hranks.descending
      · rw [elim_mapM_head? (.cons hranks.score_head?.symm .nil), List.sum_singleton]
        exact hscore
    obtain ⟨all, _, hall, hrank⟩ := exists_candidates hsound
    rw [hrank, List.map_take] at hj
    obtain ⟨e, he, _, picked, hpicked, _, rfl⟩ :=
      (Candidate.mem_parses hall).mp (List.mem_of_mem_take hj)
    obtain ⟨r, hr, rfl⟩ := List.mem_map.mp he
    obtain ⟨x, ranking, hget, hranks, _⟩ := hranking r hr
    obtain ⟨q, _, hq, hnil, rfl⟩ := List.forall₂_cons_left_iff.mp hpicked.forall₂_mem
    cases hnil
    rw [hget] at hq
    simp only [List.map_cons, List.map_nil, List.sum_singleton]
    exact hderivation hr (hranks.under q hq)

/-- Whatever a chart gives is an analysis of the sentence from the tags within the beam, under any model, for
any edges kept and any beam on the items; on exact scores it has the model's score. -/
theorem gives_analyses {gid : Nat} {categories : Array Category} {rules : List Rule}
    {markups : List (CatId × Markup)} {g : Grammar}
    (hg : Grammar.ofRules gid categories rules markups = .ok g) (s : Sentence) (maxItems : Nat)
    (retain : Retain) :
    (∀ {α : Type} [Scalar α] {tags : Supertags α} {beta : α} {m : Model α} {beam : Option α}
        {c : CoarseChart α} {f : FineChart α}, Scalar.isBottom (Scalar.bottom : α) = true →
      CoarseChart.build g s tags beta maxItems = .ok c → build c m retain beam = .ok f →
      ∀ p, f.Gives p → Analysis g s tags beta p.tree) ∧
    ∀ {tags : Supertags EReal} {beta : EReal} {m : Model EReal} {beam : Option EReal}
        {c : CoarseChart EReal} {f : FineChart EReal},
      CoarseChart.build g s tags beta maxItems = .ok c → build c m retain beam = .ok f →
      ∀ p, f.Gives p → m.scoreDerivation ⟨g, s⟩ p.tree = .ok p.score := by
  have hindexed := Grammar.indexed_ofRules hg
  constructor
  · intro α _ tags beta m beam c f hbottom hc hf p hp
    obtain ⟨rfl, rfl, hsat, hwhole⟩ := CoarseChart.build_ok hc
    obtain rfl := CoarseChart.beta_eq_of_build hc
    have hs := sound_build hsat hf
    have hroots := congrArg FineChart.roots (build_ok hf)
    obtain ⟨r, hr, y, hunder⟩ := exists_root_of_gives hs hsat hindexed hbottom hroots hp
    exact (hsat.packed_iff hindexed hwhole).mp (hs.packed_of_root hroots hr hunder)
  · intro tags beta m beam c f hc hf p hp
    obtain ⟨rfl, rfl, hsat, _⟩ := CoarseChart.build_ok hc
    have hs := sound_build hsat hf
    have hscore := scoreDerivation_of_gives hs hsat hindexed (congrArg FineChart.roots (build_ok hf)) hp
    rwa [hs.context_eq] at hscore

end FineChart

namespace Sample

theorem scoreSteps_flat (ctx : Context) (total : EReal) (es : List Expansion) :
    flat.scoreSteps ctx total es = .ok total := by
  induction es with
  | nil => rfl
  | cons e es ih => simpa [Model.scoreSteps, flat, bind, Except.bind] using ih

theorem exists_viterbi?_flat {g : Grammar} (hg : g.Indexed) (hid : g.id = 7)
    (hrules : g.rules = rules.toArray) :
    ∃ f p, FineChart.build (chart g) flat .best none = .ok f ∧ f.viterbi? = some p := by
  obtain ⟨_, _, hsat, hwhole⟩ := CoarseChart.build_ok (build_eq hg hrules)
  obtain ⟨f, hf⟩ := FineChart.exists_build (chart g) (m := flat) hid.symm .best none
  have hfinished := FineChart.finished_build hsat hg hf
  have hgold := packed_goldTree hg hrules
  obtain ⟨steps, hsteps⟩ := hgold.expansions flat.toRefiner
  have hscore : flat.scoreDerivation f.context goldTree = .ok 0 := by
    rw [hfinished.sound.context_eq, Model.scoreDerivation, hsteps]
    simp [bind, Except.bind, scoreSteps_flat]
  have hnone := (hfinished.viterbi?_spec hsat hg (by decide) hwhole).1
  cases hviterbi : f.viterbi? with
  | none => simpa using hnone.mp hviterbi goldTree hgold 0 hscore
  | some p => exact ⟨f, p, hf, hviterbi⟩

theorem gives_analyses_dogs_run : ∃ g c f p, Grammar.ofRules 7 categories rules [] = .ok g ∧
    Scalar.isBottom (Scalar.bottom : EReal) = true ∧ CoarseChart.build g dogsRun tags 1 10 = .ok c ∧
    FineChart.build c flat .best none = .ok f ∧ f.Gives p ∧ Analysis g dogsRun tags 1 p.tree ∧
    flat.scoreDerivation ⟨g, dogsRun⟩ p.tree = .ok p.score := by
  obtain ⟨g, hg, hid, hrules⟩ := exists_grammar
  have hindexed := Grammar.indexed_ofRules hg
  have hc := build_eq hindexed hrules
  have hbottom : Scalar.isBottom (Scalar.bottom : EReal) = true := by simp
  obtain ⟨f, p, hf, hviterbi⟩ := exists_viterbi?_flat hindexed hid hrules
  have hgiven := FineChart.gives_analyses hg dogsRun 10 .best
  exact ⟨g, chart g, f, p, hg, hbottom, hc, hf, .inl hviterbi,
    hgiven.1 hbottom hc hf p (.inl hviterbi), hgiven.2 hc hf p (.inl hviterbi)⟩

end Sample

end Categorial
