import Categorial.Proofs.Coarse.Licensed
import Categorial.Proofs.Model.Counting
import Categorial.Proofs.Model.Estimate
import Categorial.Proofs.Model.Events
set_option autoImplicit false

/-!
Corpora in another order. Counting numbers words as they come, so the tables of two models differ; but the events
are the same before they are numbered, and what a model answers depends on no more than these.
-/

namespace Categorial

def eventsFor (choice : Choice) (es : List PlainEvent) : List PlainEvent := es.filter fun e => choice = e.choice

/-- The choices that gold steps make. -/
def goldEvents (c : Conditioning) (distance : Bool) (steps : List GoldStep) : List PlainEvent :=
  steps.flatMap fun x => plainEvents c distance x.context x.rule x.expansion

def Expansion.built? : Expansion → Option CatId
  | .top _ _ => none
  | e => some e.site.cat

def goldCategories (steps : List GoldStep) : List CatId := steps.filterMap fun x => x.expansion.built?

namespace GenerativeModel

theorem kept_foldl_observe (events : List Event) (m : GenerativeModel) :
    (events.foldl observe m).vocabulary = m.vocabulary ∧ (events.foldl observe m).prior = m.prior ∧
      (events.foldl observe m).priorTotal = m.priorTotal := by
  induction events generalizing m with
  | nil => exact ⟨rfl, rfl, rfl⟩
  | cons e events ih =>
    obtain ⟨hvocabulary, hprior, htotal⟩ := ih (m.observe e)
    rw [List.foldl_cons, hvocabulary, hprior, htotal]
    unfold observe
    cases e.choice <;> exact ⟨rfl, rfl, rfl⟩

theorem vocabulary_addStep (m : GenerativeModel) (x : GoldStep) :
    (m.addStep x).vocabulary =
      ((eventsOf m.conditioning m.distance .grow x.context x.rule x.expansion).run m.vocabulary).2 := by
  obtain ⟨ctx, rule, e⟩ := x
  cases e <;> exact (kept_foldl_observe _ _).1

theorem prior_addStep (m : GenerativeModel) (x : GoldStep) (cat : CatId) :
    (m.addStep x).prior.getD cat 0 = m.prior.getD cat 0 + x.expansion.built?.toList.count cat := by
  obtain ⟨ctx, rule, e⟩ := x
  have hinsert : ∀ cat', (m.prior.insert cat' (m.prior.getD cat' 0 + 1)).getD cat 0 =
      m.prior.getD cat 0 + [cat'].count cat := by
    intro cat'
    rw [Std.HashMap.getD_insert, List.count_singleton]
    by_cases h : cat' = cat
    · simp [h]
    · simp [h]
  cases e with
  | top => exact congrArg (·.getD cat 0) (kept_foldl_observe _ _).2.1
  | _ =>
    refine Eq.trans ?_ (hinsert _)
    exact congrArg (fun prior : Std.HashMap CatId Nat => (prior.insert _ (prior.getD _ 0 + 1)).getD cat 0)
      (kept_foldl_observe _ _).2.1

theorem priorTotal_addStep (m : GenerativeModel) (x : GoldStep) :
    (m.addStep x).priorTotal = m.priorTotal + x.expansion.built?.toList.length := by
  obtain ⟨ctx, rule, e⟩ := x
  cases e with
  | top => exact (kept_foldl_observe _ _).2.2
  | _ => exact congrArg (· + 1) (kept_foldl_observe _ _).2.2

theorem distribution_foldl_codeEvent (v : Vocabulary) (choice : Choice) (es : List PlainEvent) :
    ∀ m : GenerativeModel, ((es.map v.codeEvent).foldl observe m).distribution choice =
      (m.distribution choice).observeAll ((eventsFor choice es).map v.pair) := by
  induction es with
  | nil => exact fun _ => rfl
  | cons e es ih =>
    intro m
    have hchoice : (v.codeEvent e).choice = e.choice := rfl
    rw [List.map_cons, List.foldl_cons, ih, distribution_observe, hchoice]
    by_cases h : choice = e.choice
    · rw [if_pos h, eventsFor, eventsFor, List.filter_cons_of_pos (by simpa using h)]
      rfl
    · rw [if_neg h, eventsFor, eventsFor, List.filter_cons_of_neg (by simpa using h)]

/-- What has been counted of some steps, told by their events. -/
structure Tallied (u : GenerativeModel) (steps : List GoldStep) (m : GenerativeModel) : Prop where
  kind : u.SameKind m
  consistent : m.vocabulary.Consistent
  knows : ∀ a : Part, a.Named → (m.vocabulary.Knows a ↔
    ∃ e ∈ goldEvents u.conditioning u.distance steps, a ∈ e.parts)
  distribution : ∀ v, m.vocabulary.Extends v → ∀ choice, m.distribution choice =
    (u.distribution choice).observeAll
      ((eventsFor choice (goldEvents u.conditioning u.distance steps)).map v.pair)
  prior : ∀ cat, m.prior.getD cat 0 = (goldCategories steps).count cat
  priorTotal : m.priorTotal = (goldCategories steps).length

theorem Tallied.addStep {u m : GenerativeModel} {steps : List GoldStep} (h : Tallied u steps m)
    (x : GoldStep) : Tallied u (steps ++ [x]) (m.addStep x) := by
  have hnumbers := Numbers.eventsOf u.conditioning u.distance x.context x.rule x.expansion
  have hvocabulary := vocabulary_addStep m x
  rw [h.kind.conditioning, h.kind.distance] at hvocabulary
  have hevents : goldEvents u.conditioning u.distance (steps ++ [x]) =
      goldEvents u.conditioning u.distance steps ++
        plainEvents u.conditioning u.distance x.context x.rule x.expansion := by
    simp [goldEvents]
  have hcategories : goldCategories (steps ++ [x]) = goldCategories steps ++ x.expansion.built?.toList := by
    rw [goldCategories, List.filterMap_append]
    cases hbuilt : x.expansion.built? <;> simp [goldCategories, hbuilt]
  refine ⟨h.kind.trans (sameKind_addStep m x), ?_, fun a ha => ?_, fun v hv choice => ?_, fun cat => ?_, ?_⟩
  · rw [hvocabulary]
    exact hnumbers.consistent _ h.consistent
  · rw [hvocabulary, hnumbers.knows, h.knows a ha, hevents]
    simp only [List.mem_append, or_and_right, exists_or, List.mem_flatMap]
  · rw [hvocabulary] at hv
    obtain ⟨hext, hvalue⟩ := hnumbers.later m.vocabulary
    rw [distribution_addStep, h.kind.conditioning, h.kind.distance, ← hvalue v hv,
      distribution_foldl_codeEvent, h.distribution v (hext.trans hv), hevents]
    simp [eventsFor, Backoff.observeAll]
  · rw [prior_addStep, h.prior, hcategories, List.count_append]
  · rw [priorTotal_addStep, h.priorTotal, hcategories, List.length_append]

theorem tallied_foldl_addStep (g : Grammar) (c : Conditioning) (distance : Bool) (steps : List GoldStep) :
    Tallied (untrained g c distance) steps (steps.foldl addStep (untrained g c distance)) := by
  induction steps using List.reverseRecOn with
  | nil =>
    refine ⟨⟨rfl, rfl, rfl⟩, Vocabulary.consistent_empty, fun a ha => ?_, fun v _ choice => rfl, fun cat => ?_, rfl⟩
    · exact iff_of_false (Vocabulary.not_knows_empty ha) (by simp [goldEvents])
    · simp [untrained, goldCategories]
  | append_singleton steps x ih =>
    rw [List.foldl_append]
    exact ih.addStep x

theorem exists_chain (g : Grammar) (c : Conditioning) (distance : Bool) (choice : Choice) :
    ∃ base more, (untrained g c distance).distribution choice = Backoff.chainFrom base more := by
  cases choice <;> exact ⟨_, _, rfl⟩

section

variable {u m m' : GenerativeModel} {steps steps' : List GoldStep}

theorem goldEvents_perm (c : Conditioning) (distance : Bool) (hperm : steps.Perm steps') :
    (goldEvents c distance steps).Perm (goldEvents c distance steps') :=
  hperm.flatMap_right _

theorem eventsFor_perm (choice : Choice) {es es' : List PlainEvent} (hperm : es.Perm es') :
    (eventsFor choice es).Perm (eventsFor choice es') :=
  hperm.filter _

theorem Tallied.belowMarkers (h : Tallied u steps m) (h' : Tallied u steps' m') (hperm : steps.Perm steps')
    (hbelow : m.vocabulary.BelowMarkers) : m'.vocabulary.BelowMarkers := by
  have hknows : ∀ a : Part, a.Named → (m.vocabulary.Knows a ↔ m'.vocabulary.Knows a) := by
    intro a ha
    rw [h.knows a ha, h'.knows a ha]
    exact exists_congr fun e => and_congr_left fun _ => (goldEvents_perm _ _ hperm).mem_iff
  exact ⟨h.consistent.words.size_eq h'.consistent.words (fun x => hknows (.word (some x)) rfl) ▸ hbelow.1,
    h.consistent.tags.size_eq h'.consistent.tags (fun x => hknows (.tag (some x)) rfl) ▸ hbelow.2⟩

theorem Tallied.knows_parts (h : Tallied u steps m) {e : PlainEvent}
    (he : e ∈ goldEvents u.conditioning u.distance steps) : ∀ a ∈ e.parts, m.vocabulary.Knows a := by
  intro a ha
  by_cases hnamed : a.Named
  · exact (h.knows a hnamed).mpr ⟨e, he, ha⟩
  · exact m.vocabulary.knows_of_not_named hnamed

/-- Both numberings tell the counted events apart, from each other and from an event of any step, by what they
are before they are numbered. -/
theorem Tallied.alike (h : Tallied u steps m) (h' : Tallied u steps' m') (hperm : steps.Perm steps')
    (hbelow : m.vocabulary.BelowMarkers) {q : PlainEvent} (hq : q.Shaped u.conditioning u.distance) :
    Alike m.vocabulary.pair m'.vocabulary.pair
      (eventsFor q.choice (goldEvents u.conditioning u.distance steps)) q := by
  have hbelow' := h.belowMarkers h' hperm hbelow
  have hevent : ∀ e ∈ eventsFor q.choice (goldEvents u.conditioning u.distance steps),
      e ∈ goldEvents u.conditioning u.distance steps ∧ e.choice = q.choice := by
    intro e he
    obtain ⟨hmem, hchoice⟩ := List.mem_filter.mp he
    exact ⟨hmem, (of_decide_eq_true hchoice).symm⟩
  have hshaped : ∀ e ∈ goldEvents u.conditioning u.distance steps, e.Shaped u.conditioning u.distance := by
    intro e he
    obtain ⟨x, _, hx⟩ := List.mem_flatMap.mp he
    exact shaped_of_mem_plainEvents hx
  have hpair : ∀ e ∈ eventsFor q.choice (goldEvents u.conditioning u.distance steps), ∀ e' : PlainEvent,
      e'.Shaped u.conditioning u.distance → e'.choice = q.choice →
      (∀ width, ((m.vocabulary.pair e).1.take width = (m.vocabulary.pair e').1.take width ↔
        (m'.vocabulary.pair e).1.take width = (m'.vocabulary.pair e').1.take width)) ∧
      ((m.vocabulary.pair e).2 = (m.vocabulary.pair e').2 ↔
        (m'.vocabulary.pair e).2 = (m'.vocabulary.pair e').2) := by
    intro e he e' hshaped' hchoice'
    obtain ⟨hmem, hchoice⟩ := hevent e he
    have hsame := hchoice.trans hchoice'.symm
    obtain ⟨hcontext, houtcome⟩ :=
      h.consistent.pair_iff hbelow (hshaped e hmem) hshaped' hsame (h.knows_parts hmem)
    obtain ⟨hcontext', houtcome'⟩ := h'.consistent.pair_iff hbelow' (hshaped e hmem) hshaped' hsame
      (h'.knows_parts ((goldEvents_perm _ _ hperm).mem_iff.mp hmem))
    exact ⟨fun width => (hcontext width).trans (hcontext' width).symm, houtcome.trans houtcome'.symm⟩
  refine ⟨fun width e he => (hpair e he q hq rfl).1 width, fun e he e' he' => ?_⟩
  rcases List.mem_cons.mp he' with rfl | he'
  · exact (hpair e he e' hq rfl).2
  · obtain ⟨hmem, hchoice⟩ := hevent e' he'
    exact (hpair e he e' (hshaped e' hmem) hchoice).2

variable {α : Type} [Scalar α]

theorem events_eq (m : GenerativeModel) (ctx : Context) (rule : Rule) (e : Expansion) :
    m.events ctx rule e = (plainEvents m.conditioning m.distance ctx rule e).map m.vocabulary.codeEvent :=
  congrArg Prod.fst ((Numbers.eventsOf m.conditioning m.distance ctx rule e).looksUp m.vocabulary)

theorem Tallied.total_eq {g : Grammar} {c : Conditioning} {distance : Bool}
    (h : Tallied (untrained g c distance) steps m) (h' : Tallied (untrained g c distance) steps' m')
    (hperm : steps.Perm steps') (hbelow : m.vocabulary.BelowMarkers) (ctx : Context) (rule : Rule)
    (e : Expansion) : (m'.total ctx rule e : α) = m.total ctx rule e := by
  rw [total, total, events_eq, events_eq, h.kind.conditioning, h.kind.distance, h'.kind.conditioning,
    h'.kind.distance, List.foldl_map, List.foldl_map]
  refine List.foldl_ext _ _ _ fun acc q hq => congrArg (Scalar.both acc) ?_
  obtain ⟨base, more, hchain⟩ := exists_chain g c distance q.choice
  have halike := h.alike h' hperm hbelow (shaped_of_mem_plainEvents hq)
  have hevents := eventsFor_perm q.choice (goldEvents_perm c distance hperm)
  have hcounted := h.distribution _ (.refl _) q.choice
  have hcounted' := h'.distribution _ (.refl _) q.choice
  rw [hchain] at hcounted hcounted'
  have hchoice : ∀ v : Vocabulary, (v.codeEvent q).choice = q.choice := fun _ => rfl
  rw [Backoff.logProbability, Backoff.logProbability, hchoice, hchoice, hcounted, hcounted']
  exact congrArg Scalar.ofProbability (Backoff.probability_congr halike hevents base more).symm

theorem Tallied.merit_eq (h : Tallied u steps m) (h' : Tallied u steps' m') (hperm : steps.Perm steps')
    (ctx : Context) (site : Site) : (m'.merit ctx site : α) = m.merit ctx site := by
  have hcategories : (goldCategories steps).Perm (goldCategories steps') := hperm.filterMap _
  rw [merit, merit, h.prior, h'.prior, h.priorTotal, h'.priorTotal, hcategories.count_eq,
    hcategories.length_eq]

end

theorem context_of_goldSteps {r : Refiner} {ctx : Context} {t : Derivation} {steps : List GoldStep}
    (h : r.goldSteps? ctx t = some steps) : ∀ x ∈ steps, x.context = ctx := by
  intro x hx
  obtain ⟨es, _, hes⟩ := Option.bind_eq_some_iff.mp h
  obtain ⟨e, _, he⟩ := mem_left_of_forall₂ (forall₂_of_mapM hes) hx
  obtain ⟨rule, _, rfl⟩ := Option.map_eq_some_iff.mp he
  rfl

theorem exists_token_of_knows {g : Grammar} {c : Conditioning} {distance : Bool}
    {corpus : List (Sentence × Derivation)} {m : GenerativeModel}
    (hm : estimate g c distance corpus = .ok m) {a : Part} (ha : a.Named) (hknown : m.vocabulary.Knows a) :
    ∃ entry ∈ corpus, ∃ i, a = .tag ((entry.1.token? i).map Token.pos) ∨
      a = .word ((entry.1.token? i).map Token.word) := by
  obtain ⟨steps, hsteps, rfl⟩ := estimate_ok_iff.mp hm
  have htallied := tallied_foldl_addStep g c distance steps.flatten
  obtain ⟨e, he, hpart⟩ := (htallied.knows a ha).mp hknown
  obtain ⟨x, hx, he⟩ := List.mem_flatMap.mp he
  obtain ⟨xs, hxs, hx⟩ := List.mem_flatten.mp hx
  obtain ⟨entry, hentry, hxs⟩ := mem_left_of_forall₂ (forall₂_of_mapM hsteps) hxs
  obtain ⟨i, hi⟩ := source_of_mem_parts he hpart ha
  rw [context_of_goldSteps hxs x hx] at hi
  cases i with
  | none => rcases hi with rfl | rfl <;> cases ha
  | some i => exact ⟨entry, hentry, i, hi⟩

/-- What all tokens of a corpus have for one of their fields. -/
def fieldsOf (f : Token → String) (corpus : List (Sentence × Derivation)) : List String :=
  corpus.flatMap fun entry => entry.1.tokens.toList.map f

theorem length_fieldsOf (f : Token → String) (corpus : List (Sentence × Derivation)) :
    (fieldsOf f corpus).length = (corpus.map fun entry => entry.1.length).sum := by
  simp [fieldsOf, List.length_flatMap, Sentence.length]

theorem mem_fieldsOf {f : Token → String} {corpus : List (Sentence × Derivation)}
    {entry : Sentence × Derivation} (hentry : entry ∈ corpus) {i : Nat} {x : String}
    (hx : some x = (entry.1.token? i).map f) : x ∈ fieldsOf f corpus := by
  obtain ⟨token, htoken, rfl⟩ := Option.map_eq_some_iff.mp hx.symm
  have hmem : token ∈ entry.1.tokens.toList := Array.mem_toList_iff.mpr (Array.mem_of_getElem? htoken)
  exact List.mem_flatMap.mpr ⟨entry, hentry, List.mem_map_of_mem hmem⟩

/-- There are no more words, and no more tags, than tokens in the corpus. -/
theorem estimate_size_le {g : Grammar} {c : Conditioning} {distance : Bool}
    {corpus : List (Sentence × Derivation)} {m : GenerativeModel}
    (hm : estimate g c distance corpus = .ok m) :
    m.vocabulary.words.size ≤ (corpus.map fun entry => entry.1.length).sum ∧
      m.vocabulary.tags.size ≤ (corpus.map fun entry => entry.1.length).sum := by
  have hconsistent : m.vocabulary.Consistent := by
    obtain ⟨steps, _, rfl⟩ := estimate_ok_iff.mp hm
    exact (tallied_foldl_addStep g c distance steps.flatten).consistent
  constructor
  · rw [← length_fieldsOf Token.word]
    refine hconsistent.words.size_le fun x hx => ?_
    obtain ⟨entry, hentry, i, hi⟩ := exists_token_of_knows hm (a := .word (some x)) rfl hx
    exact mem_fieldsOf hentry (by simpa using hi)
  · rw [← length_fieldsOf Token.pos]
    refine hconsistent.tags.size_le fun x hx => ?_
    obtain ⟨entry, hentry, i, hi⟩ := exists_token_of_knows hm (a := .tag (some x)) rfl hx
    exact mem_fieldsOf hentry (by simpa using hi)

/-- Estimation does not depend on the order of the corpus: the models score every step of every sentence alike,
or refuse it alike, and give every site the same figure of merit. Ids are 32 bits wide, and the markers sit at the
top of them, above all that words and tags are given; a table that had grown into the markers would number a word
like the unknown one. -/
theorem estimate_perm {g : Grammar} {c : Conditioning} {distance : Bool}
    {corpus corpus' : List (Sentence × Derivation)} {m : GenerativeModel}
    (hm : estimate g c distance corpus = .ok m) (hperm : corpus.Perm corpus')
    (hbelow : m.vocabulary.BelowMarkers) :
    ∃ m', estimate g c distance corpus' = .ok m' ∧ ∀ (α : Type) [Scalar α],
      (∀ ctx e, (m'.toModel : Model α).score ctx e = m.toModel.score ctx e) ∧
        ∀ ctx site, (m'.toModel : Model α).merit ctx site = m.toModel.merit ctx site := by
  obtain ⟨steps, hsteps, hm⟩ := estimate_ok_iff.mp hm
  obtain ⟨steps', hsteps'⟩ : ∃ steps', corpus'.mapM (fun entry =>
      (untrained g c distance).refiner.goldSteps? ⟨g, entry.1⟩ entry.2) = some steps' := by
    refine exists_mapM fun entry hentry => ?_
    obtain ⟨x, _, hx⟩ := mem_right_of_forall₂ (forall₂_of_mapM hsteps) (hperm.mem_iff.mpr hentry)
    exact ⟨x, hx⟩
  have hflat : steps.flatten.Perm steps'.flatten := by
    rw [← filterMap_eq_of_mapM hsteps, ← filterMap_eq_of_mapM hsteps']
    exact (hperm.filterMap _).flatten
  have htallied := tallied_foldl_addStep g c distance steps.flatten
  have htallied' := tallied_foldl_addStep g c distance steps'.flatten
  rw [← hm] at htallied
  refine ⟨_, estimate_ok_iff.mpr ⟨steps', hsteps', rfl⟩, fun α _ => ⟨fun ctx e => ?_, fun ctx site => ?_⟩⟩
  · show (e.check ctx >>= fun rule => _) = e.check ctx >>= fun rule => _
    exact congrArg _ (funext fun rule => congrArg _
      (htallied.total_eq htallied' hflat hbelow ctx rule e))
  · exact htallied.merit_eq htallied' hflat ctx site

end GenerativeModel

namespace Sample

def catsSleep : Sentence := ⟨#[⟨"cats", "NNS", none⟩, ⟨"sleep", "VBP", none⟩]⟩

theorem estimate_perm_two : ∃ g m m', Grammar.ofRules 7 categories rules [] = .ok g ∧
    GenerativeModel.estimate g .headword true [(dogsRun, goldTree), (catsSleep, goldTree)] = .ok m ∧
    GenerativeModel.estimate g .headword true [(catsSleep, goldTree), (dogsRun, goldTree)] = .ok m' ∧
    (∀ ctx e, (m'.toModel : Model EReal).score ctx e = m.toModel.score ctx e) ∧
    ∀ ctx site, (m'.toModel : Model EReal).merit ctx site = m.toModel.merit ctx site := by
  obtain ⟨g, hg, _, hrules⟩ := exists_grammar
  have hindexed := Grammar.indexed_ofRules hg
  obtain ⟨_, _, hsat, hwhole⟩ := CoarseChart.build_ok (build_eq hindexed hrules)
  have hanalysis := (hsat.packed_iff hindexed hwhole).mp (packed_goldTree hindexed hrules)
  obtain ⟨m, hm⟩ : ∃ m, GenerativeModel.estimate g .headword true
      [(dogsRun, goldTree), (catsSleep, goldTree)] = .ok m := by
    refine GenerativeModel.exists_estimate hindexed (Grammar.terminal_ofRules hg) .headword true ?_
    intro entry hentry
    rcases List.mem_pair.mp hentry with rfl | rfl
    · exact ⟨hanalysis.licensed.mono fun _ _ _ => trivial, hanalysis.start⟩
    · exact ⟨hanalysis.licensed.mono fun _ _ _ => trivial, hanalysis.start⟩
  obtain ⟨hwords, htags⟩ := GenerativeModel.estimate_size_le hm
  have hfew : 4 ≤ Marker.unknown.id := by decide
  obtain ⟨m', hm', hsame⟩ := GenerativeModel.estimate_perm hm (.swap _ _ _)
    ⟨hwords.trans hfew, htags.trans hfew⟩
  obtain ⟨hscore, hmerit⟩ := hsame EReal
  exact ⟨g, m, m', hg, hm, hm', hscore, hmerit⟩

end Sample

end Categorial
