import Categorial.Model.Perceptron
import Categorial.Parser
import Categorial.Proofs.Coarse.Wider
import Categorial.Proofs.Fine.Asked
import Categorial.Proofs.Model.Backoff
import Categorial.Proofs.Model.Estimate
set_option autoImplicit false

/-!
Generative models on charts. A step that its rule can make gets a finite score, whatever corpus the model was
estimated from; and a fine pass asks for no other steps. So without a beam every coarse item has a fine one,
and a sentence that a start category spans has a derivation.
-/

namespace Categorial

open ExactScalar

namespace GenerativeModel

def Counted (m : GenerativeModel) : Prop := ∀ choice, (m.distribution choice).Counted

theorem counted_untrained (g : Grammar) (c : Conditioning) (distance : Bool) :
    (untrained g c distance).Counted := by
  intro choice
  cases choice <;> exact Backoff.counted_chain _ _

theorem Counted.observe {m : GenerativeModel} (h : m.Counted) (e : Event) : (m.observe e).Counted := by
  intro choice
  rw [distribution_observe]
  split
  · exact (h _).observe _ _
  · exact h _

theorem Counted.addStep {m : GenerativeModel} (h : m.Counted) (x : GoldStep) : (m.addStep x).Counted := by
  have hevents : ∀ (events : List Event) {m : GenerativeModel}, m.Counted →
      (events.foldl GenerativeModel.observe m).Counted := by
    intro events
    induction events with
    | nil => exact fun h => h
    | cons e events ih => exact fun h => ih (h.observe e)
  intro choice
  rw [distribution_addStep]
  exact hevents _ h choice

theorem counted_estimate {g : Grammar} {c : Conditioning} {distance : Bool}
    {corpus : List (Sentence × Derivation)} {m : GenerativeModel}
    (h : estimate g c distance corpus = .ok m) : m.Counted :=
  estimate_induction h (counted_untrained g c distance) fun _ x h => h.addStep x

theorem Counted.finite_total {m : GenerativeModel} (h : m.Counted) (ctx : Context) (rule : Rule)
    (e : Expansion) : Finite (m.total ctx rule e) := by
  have hfold : ∀ (events : List Event) (acc : EReal), Finite acc → Finite (events.foldl (fun acc event =>
      Scalar.both acc ((m.distribution event.choice).logProbability event.context event.outcome)) acc) := by
    intro events
    induction events with
    | nil => exact fun _ hacc => hacc
    | cons event events ih =>
      exact fun acc hacc => ih _ (hacc.both (Backoff.finite_logProbability (h _) _ _))
  exact hfold _ _ finite_zero

theorem score_of_check {α : Type} [Scalar α] {m : GenerativeModel} {ctx : Context} {e : Expansion} {r : Rule}
    (h : e.check ctx = .ok r) : (m.toModel : Model α).score ctx e = .ok (m.total ctx r e) := by
  simp [toModel, h, bind, Except.bind]

theorem Counted.scoresIn {m : GenerativeModel} (h : m.Counted) (ctx : Context) :
    (m.toModel : Model EReal).ScoresIn ctx Finite := by
  intro e x hx
  obtain ⟨rule, _, hx⟩ := except_bind_eq_ok.mp hx
  cases hx
  exact h.finite_total ctx rule e

end GenerativeModel

theorem Perceptron.score_of_check {α : Type} [Scalar α] {m : Perceptron α} {ctx : Context} {e : Expansion}
    {r : Rule} (h : e.check ctx = .ok r) : m.toModel.score ctx e = .ok (m.total ctx r e) := by
  simp [toModel, h, bind, Except.bind]

namespace FineChart

section

variable {α : Type} [Scalar α] {c : CoarseChart α} {m : Model α} {retain : Retain} {f : FineChart α}
  {tags : Supertags α} {S : α → Prop}

variable (hf : Finished c m retain f) (hs : Scored c S f) (hc : c.Saturated tags) (hg : c.grammar.Indexed)
  (hterminal : ∀ r ∈ c.grammar.rules, r.ruleType = .lexical → r.production = .terminal)
  (hscore : ∀ e r, e.check ⟨c.grammar, c.sentence⟩ = .ok r → ∃ x, m.score ⟨c.grammar, c.sentence⟩ e = .ok x)

include hf hs hc hg hterminal hscore

theorem Finished.exists_has_of_children {span : Span} {id : CoarseId} {item : CoarseItem}
    (hspan : span.Within c.sentence.length) (hmem : (id, item) ∈ c.itemsOver span)
    (hchildren : ∀ step ∈ item.steps, ∀ child ∈ step.children, ∃ i x, f.Has child i x) :
    ∃ i x, f.Has id i x := by
  obtain ⟨step, hstep⟩ := hc.exists_step hg hspan hmem
  obtain ⟨q, hq⟩ := exists_mem_requests f m item fun child hchild => by
    obtain ⟨i, x, hx⟩ := hchildren step hstep child hchild
    exact ⟨(i, x), hf.mem_liveItems_iff.mpr hx⟩
  obtain ⟨r, hr⟩ := check_of_mem_requests hc hg hterminal hs hspan hmem hstep hq
  obtain ⟨x, hx⟩ := hscore _ r hr
  rw [← hs.context_eq] at hx
  have hproposed := mem_proposals_of_request hstep hq hx
  obtain ⟨⟨i, hi⟩, _⟩ := hf.exists_item hspan hmem (hf.mem_proposals_iff.mp hproposed)
  exact ⟨i, _, hi⟩

/-- If the model scores every step that its rule can make, then without a beam every coarse item has a fine
one. The induction is on the length of the span; over one span the items of the lower level come first. -/
theorem Finished.exists_has (n : Nat) : ∀ {span : Span} {id : CoarseId} {item : CoarseItem},
    span.Within c.sentence.length → span.length = n → (id, item) ∈ c.itemsOver span →
      ∃ i x, f.Has id i x := by
  induction n using Nat.strong_induction_on with
  | _ n ih =>
    have lower : ∀ {span : Span} {id : CoarseId} {item : CoarseItem}, span.Within c.sentence.length →
        span.length = n → (id, item) ∈ c.itemsOver span → item.level = .base → ∃ i x, f.Has id i x := by
      intro span id item hspan hn hmem hbase
      refine hf.exists_has_of_children hs hc hg hterminal hscore hspan hmem fun step hstep child hchild => ?_
      obtain ⟨sub, y, hsub, hy, hshorter | ⟨_, _, hunary⟩⟩ := hc.child hg hspan hmem hstep hchild
      · exact ih sub.length (hn ▸ hshorter) hsub rfl hy
      · rw [hbase] at hunary
        cases hunary
    intro span id item hspan hn hmem
    refine hf.exists_has_of_children hs hc hg hterminal hscore hspan hmem fun step hstep child hchild => ?_
    obtain ⟨sub, y, hsub, hy, hshorter | ⟨rfl, hbase, _⟩⟩ := hc.child hg hspan hmem hstep hchild
    · exact ih sub.length (hn ▸ hshorter) hsub rfl hy
    · exact lower hsub hn hy hbase

end

/-- A model that gives finite scores to all steps that their rules can make finds a derivation, without a beam,
whenever a start category spans the sentence. -/
theorem hasParse_of_finite {g : Grammar} {s : Sentence} {tags : Supertags EReal} {beta : EReal} {maxItems : Nat}
    {c : CoarseChart EReal} {m : Model EReal} {retain : Retain} {f : FineChart EReal} (hg : g.Indexed)
    (hterminal : ∀ r ∈ g.rules, r.ruleType = .lexical → r.production = .terminal)
    (hc : CoarseChart.build g s tags beta maxItems = .ok c) (hf : build c m retain none = .ok f)
    (hm : m.ScoresIn ⟨g, s⟩ Finite) (hscore : ∀ e r, e.check ⟨g, s⟩ = .ok r → ∃ x, m.score ⟨g, s⟩ e = .ok x) :
    f.hasParse = true := by
  obtain ⟨rfl, rfl, hsat, hwhole⟩ := CoarseChart.build_ok hc
  obtain ⟨id, item, hmem, hstart⟩ := CoarseChart.exists_start hc
  have hfinished := finished_build hsat hg hf
  have hscored : Scored c Finite f := by
    rw [build_ok hf]
    obtain ⟨hcoarse, hlive, hsite, hfinite⟩ := (scored_pass retain none (fun _ _ => Finite.both) hm).1
    exact ⟨hcoarse, hlive, hsite, hfinite⟩
  obtain ⟨i, x, hx⟩ := hfinished.exists_has hscored hsat hg hterminal hscore _ hwhole rfl hmem
  obtain ⟨rule, hrule⟩ := Option.isSome_iff_exists.mp hstart
  have hcandidate : (rule, i, x) ∈ f.rootCandidates := by
    refine List.mem_flatMap.mpr ⟨(id, item), hscored.coarse_eq ▸ hmem, ?_⟩
    rw [hscored.coarse_eq]
    simp only [hrule]
    exact List.mem_map_of_mem (hfinished.mem_liveItems_iff.mpr hx)
  obtain ⟨r, hr⟩ := check_of_mem_rootCandidates hg hscored hcandidate
  obtain ⟨y, hy⟩ := hscore _ r hr
  have hfinite : Finite (Scalar.both y x.score) := (hm _ _ hy).both (hscored.score i x hx.1)
  have hroot : (⟨i, rule, y, Scalar.both y x.score⟩ : Root EReal) ∈ f.roots :=
    hfinished.mem_roots.mpr ⟨id, item, x, hmem, hrule, hx, by rw [hscored.context_eq]; exact hy, rfl,
      hfinite.isBottom⟩
  cases hroots : f.roots with
  | nil => simp [hroots] at hroot
  | cons first rest => simp [hasParse, hroots]

end FineChart

/-- What a generative model, untrained or estimated, makes of what is spanned. It scores every step that a fine
pass asks for, as linear models do, whatever is retained and pruned; in exact numbers all of its scores are
finite; and without a beam a parser has a derivation for every sentence that its coarse chart spans. -/
theorem GenerativeModel.fine_of_coarse {gid : Nat} {categories : Array Category} {rules : List Rule}
    {markups : List (CatId × Markup)} {g : Grammar} {conditioning : Conditioning} {distance : Bool}
    {corpus : List (Sentence × Derivation)} {m : GenerativeModel}
    (hg : Grammar.ofRules gid categories rules markups = .ok g)
    (hm : estimate g conditioning distance corpus = .ok m) :
    (∀ (α : Type) [Scalar α] (s : Sentence) (tags : Supertags α) (beta : α) (maxItems : Nat)
      (c : CoarseChart α), CoarseChart.build g s tags beta maxItems = .ok c →
      ∀ (retain : Retain) (beam : Option α),
        (∀ e ∈ FineChart.asked c m.toModel retain beam, ∃ x : α, m.toModel.score ⟨g, s⟩ e = .ok x) ∧
        ∀ p : Perceptron α, ∀ e ∈ FineChart.asked c p.toModel retain beam,
          ∃ x, p.toModel.score ⟨g, s⟩ e = .ok x) ∧
    (∀ ctx, (m.toModel : Model EReal).ScoresIn ctx Finite) ∧
    ∀ p : Parser EReal, p.grammar = g → p.model = m.toModel → p.config.fineBeam = none →
      ∀ s tags, p.chart s tags ≠ .error .fine := by
  have hindexed := Grammar.indexed_ofRules hg
  have hterminal := Grammar.terminal_ofRules hg
  refine ⟨fun α _ s tags beta maxItems c hc retain beam => ?_, (counted_estimate hm).scoresIn, ?_⟩
  · obtain ⟨rfl, rfl, hsat, _⟩ := CoarseChart.build_ok hc
    constructor
    · intro e he
      obtain ⟨r, hr⟩ := FineChart.check_of_mem_asked hsat hindexed hterminal he
      exact ⟨_, score_of_check hr⟩
    · intro p e he
      obtain ⟨r, hr⟩ := FineChart.check_of_mem_asked hsat hindexed hterminal he
      exact ⟨_, Perceptron.score_of_check hr⟩
  · rintro p rfl hmodel hbeam s tags herror
    unfold Parser.chart Parser.coarse at herror
    rcases except_bind_eq_error.mp herror with hcoarse | ⟨c, hcoarse, hfine⟩
    · rcases ParserConfig.coarseChart_error hcoarse with h | h <;> cases h
    · obtain ⟨beta, hc⟩ := ParserConfig.coarseChart_ok hcoarse
      obtain ⟨hgrammar, _⟩ := CoarseChart.build_ok hc
      have hid : p.model.grammarId = c.grammar.id := by
        rw [hmodel, hgrammar]
        exact (estimate_sameKind hm).grammarId
      obtain ⟨f, hf⟩ := FineChart.exists_build c hid p.config.retain none
      have hparse : f.hasParse = true :=
        FineChart.hasParse_of_finite hindexed hterminal hc hf (hmodel ▸ (counted_estimate hm).scoresIn _)
          fun e r hr => ⟨_, hmodel ▸ score_of_check hr⟩
      rw [hbeam, hf] at hfine
      simp [hparse] at hfine

namespace Sample

theorem fine_of_coarse_dogs_run : ∃ g m, Grammar.ofRules 7 categories rules [] = .ok g ∧
    GenerativeModel.estimate g .headword true [(dogsRun, goldTree)] = .ok m ∧
    (∀ e ∈ FineChart.asked (chart g) (m.toModel : Model EReal) .best none,
      ∃ x, (m.toModel : Model EReal).score ⟨g, dogsRun⟩ e = .ok x) ∧
    (∀ ctx, (m.toModel : Model EReal).ScoresIn ctx Finite) ∧
    Parser.chart ⟨g, m.toModel, ⟨[1], 10, .best, none, 10, 1⟩⟩ dogsRun tags ≠ .error .fine := by
  obtain ⟨g, hg, _, hrules⟩ := exists_grammar
  have hindexed := Grammar.indexed_ofRules hg
  have hc := build_eq hindexed hrules
  obtain ⟨_, _, hsat, hwhole⟩ := CoarseChart.build_ok hc
  have hanalysis := (hsat.packed_iff hindexed hwhole).mp (packed_goldTree hindexed hrules)
  obtain ⟨m, hm⟩ : ∃ m, GenerativeModel.estimate g .headword true [(dogsRun, goldTree)] = .ok m := by
    refine GenerativeModel.exists_estimate hindexed (Grammar.terminal_ofRules hg) .headword true ?_
    intro entry hentry
    obtain rfl := List.mem_singleton.mp hentry
    exact ⟨hanalysis.licensed.mono fun _ _ _ => trivial, hanalysis.start⟩
  obtain ⟨hasked, hfinite, hparser⟩ := GenerativeModel.fine_of_coarse hg hm
  exact ⟨g, m, hg, hm, (hasked EReal dogsRun tags 1 10 (chart g) hc .best none).1, hfinite,
    hparser _ rfl rfl rfl dogsRun tags⟩

end Sample

end Categorial
