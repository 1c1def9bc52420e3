import Categorial.Parser
import Categorial.Proofs.Coarse.Exact
import Categorial.Proofs.Supertags
set_option autoImplicit false

/-!
Charts under a wider beam. A smaller factor lets more tags in, and no cell loses an item by that. The cells
of the narrow chart are therefore never larger than those of the wide one, and a narrow chart that runs out
of room leaves none for a wide one either. This is why a ladder of beams may stop at the first chart that is
abandoned.
-/

namespace Categorial

namespace CoarseChart

/-- The steps to the items of one level of a cell. -/
def cellSteps (g : Grammar) (first : CoarseId) (span : Span) (steps : List (CatId × CoarseStep)) :
    Level → List (CatId × CoarseStep)
  | .base => steps
  | .unary => unarySteps g first (grouped span .base steps).toArray

theorem length_cellItems (g : Grammar) (first : CoarseId) (span : Span)
    (steps : List (CatId × CoarseStep)) :
    (cellItems g first span steps).length =
      (catsOf (cellSteps g first span steps .base)).length +
        (catsOf (cellSteps g first span steps .unary)).length := by
  simp [cellItems, cellSteps, grouped]

theorem exists_mem_grouped {span : Span} {at' level : Level} {steps : List (CatId × CoarseStep)}
    {cat : CatId} : (∃ item ∈ grouped span at' steps, item.cat = cat ∧ item.level = level) ↔
      at' = level ∧ cat ∈ catsOf steps := by
  constructor
  · rintro ⟨item, hitem, rfl, rfl⟩
    obtain ⟨cat, hcat, rfl⟩ := List.mem_map.mp hitem
    exact ⟨rfl, hcat⟩
  · rintro ⟨rfl, hcat⟩
    exact ⟨_, List.mem_map.mpr ⟨cat, hcat, rfl⟩, rfl, rfl⟩

/-- A cell has a category at a level exactly if a step of this level builds it. -/
theorem exists_mem_cellItems {g : Grammar} {first : CoarseId} {span : Span}
    {steps : List (CatId × CoarseStep)} {cat : CatId} {level : Level} :
    (∃ item ∈ cellItems g first span steps, item.cat = cat ∧ item.level = level) ↔
      cat ∈ catsOf (cellSteps g first span steps level) := by
  simp only [cellItems, List.mem_append, or_and_right, exists_or, exists_mem_grouped]
  cases level <;> simp [cellSteps]

theorem mem_catsOf_unarySteps {g : Grammar} {first : CoarseId} {span : Span}
    {steps : List (CatId × CoarseStep)} {cat : CatId} :
    cat ∈ catsOf (unarySteps g first (grouped span .base steps).toArray) ↔
      ∃ child ∈ catsOf steps, ∃ rule ∈ g.unaryRules child, g.combineUnary? rule child = some cat := by
  rw [mem_catsOf]
  simp only [unarySteps, List.mem_flatMap]
  constructor
  · rintro ⟨step, ⟨item, i⟩, hitem, hstep⟩
    obtain ⟨child, hchild, rfl⟩ := List.mem_map.mp (List.fst_mem_of_mem_zipIdx hitem)
    simp only [itemFor, if_true, List.mem_filterMap, Option.map_eq_some_iff, Prod.mk.injEq] at hstep
    obtain ⟨rule, hrule, result, hresult, rfl, _⟩ := hstep
    exact ⟨child, hchild, rule, hrule, hresult⟩
  · rintro ⟨child, hchild, rule, hrule, hresult⟩
    obtain ⟨i, hi⟩ := List.mem_iff_getElem?.mp hchild
    have hitem : (grouped span .base steps)[i]? = some (itemFor span .base steps child) := by
      rw [getElem?_grouped, hi]
      rfl
    refine ⟨.unary rule (first + i), (itemFor span .base steps child, i), ?_, ?_⟩
    · exact List.mk_mem_zipIdx_iff_getElem?.mpr hitem
    · simp only [itemFor, if_true, List.mem_filterMap, Option.map_eq_some_iff, Prod.mk.injEq]
      exact ⟨rule, hrule, cat, hresult, rfl, rfl⟩

theorem catsOf_cellSteps_subset {g : Grammar} {first first' : CoarseId} {span : Span}
    {steps steps' : List (CatId × CoarseStep)} (h : catsOf steps ⊆ catsOf steps') (level : Level) :
    catsOf (cellSteps g first span steps level) ⊆ catsOf (cellSteps g first' span steps' level) := by
  cases level with
  | base => exact h
  | unary =>
    intro cat hcat
    obtain ⟨child, hchild, hrule⟩ := mem_catsOf_unarySteps.mp hcat
    exact mem_catsOf_unarySteps.mpr ⟨child, h hchild, hrule⟩

theorem length_cellItems_le {g : Grammar} {first first' : CoarseId} {span : Span}
    {steps steps' : List (CatId × CoarseStep)} (h : catsOf steps ⊆ catsOf steps') :
    (cellItems g first span steps).length ≤ (cellItems g first' span steps').length := by
  have hlevel (level : Level) : (catsOf (cellSteps g first span steps level)).length ≤
      (catsOf (cellSteps g first' span steps' level)).length :=
    ((catsOf_nodup _).subperm (catsOf_cellSteps_subset h level)).length_le
  rw [length_cellItems, length_cellItems]
  exact Nat.add_le_add (hlevel .base) (hlevel .unary)

variable {α : Type}

theorem holds_iff_of_itemsOver {c : CoarseChart α} {span : Span} {first : Nat}
    {items : List CoarseItem} (h : c.itemsOver span = numbered first items) {cat : CatId}
    {level : Level} :
    c.Holds span cat level ↔ ∃ item ∈ items, item.cat = cat ∧ item.level = level := by
  have hmem (item : CoarseItem) : (∃ id, (id, item) ∈ c.itemsOver span) ↔ item ∈ items := by
    rw [h]
    conv => rhs; rw [← map_snd_numbered first items]
    simp
  unfold Holds
  rw [exists_comm]
  simp only [← hmem, exists_and_right]

/-- The first chart has no more than the second: no item that the second lacks, and no more of them. -/
structure NoMore (n : Nat) (c c' : CoarseChart α) : Prop where
  holds : ∀ span, span.Within n → ∀ cat level, c.Holds span cat level → c'.Holds span cat level
  size_le : c.items.size ≤ c'.items.size

variable {g : Grammar} {s : Sentence} {beta beta' : α} {c c' : CoarseChart α}

theorem mem_catsOf_joinSteps {left right : Span} {cat : CatId} :
    cat ∈ catsOf (c.joinSteps left right) ↔ ∃ l lv r rv, c.Holds left l lv ∧ c.Holds right r rv ∧
      ∃ rule ∈ c.grammar.binaryRules l r, c.grammar.combine? rule l r = some cat := by
  rw [mem_catsOf]
  simp only [joinSteps, List.mem_flatMap, List.mem_filterMap, Option.map_eq_some_iff, Prod.mk.injEq]
  constructor
  · rintro ⟨step, ⟨l, left⟩, hl, ⟨r, right⟩, hr, rule, hrule, result, hresult, rfl, _⟩
    exact ⟨_, _, _, _, ⟨l, left, hl, rfl, rfl⟩, ⟨r, right, hr, rfl, rfl⟩, rule, hrule, hresult⟩
  · rintro ⟨_, _, _, _, ⟨l, left, hl, rfl, rfl⟩, ⟨r, right, hr, rfl, rfl⟩, rule, hrule, hresult⟩
    exact ⟨_, (l, left), hl, (r, right), hr, rule, hrule, cat, hresult, rfl, rfl⟩

theorem holds_addCell_self (hc : Over g s beta c) {span : Span} (hspan : span.Within s.length)
    {first : CoarseId} {steps : List (CatId × CoarseStep)} {cat : CatId} {level : Level} :
    (c.addCell span (cellItems g first span steps).toArray).Holds span cat level ↔
      cat ∈ catsOf (cellSteps g first span steps level) := by
  obtain ⟨_, rfl, _, hsized⟩ := hc
  rw [holds_iff_of_itemsOver (itemsOver_addCell_self hsized hspan _), exists_mem_cellItems]

theorem holds_addCell_of_ne (hc : Over g s beta c) {span span' : Span} (hspan : span.Within s.length)
    (hspan' : span'.Within s.length) (hne : span ≠ span') {items : Array CoarseItem} {cat : CatId}
    {level : Level} : (c.addCell span items).Holds span' cat level ↔ c.Holds span' cat level := by
  obtain ⟨_, rfl, _, hsized⟩ := hc
  unfold Holds
  rw [itemsOver_addCell_of_ne hsized hspan hspan' hne]

variable [Scalar α] {tags : Supertags α} {maxItems : Nat}

theorem catsOf_stepsOver_subset (hc : Over g s beta c) (hc' : Over g s beta' c')
    (hwithin : ∀ word, tags.within word beta ⊆ tags.within word beta') (hmore : NoMore s.length c c')
    {span : Span} (hspan : span.Within s.length) :
    catsOf (c.stepsOver tags span) ⊆ catsOf (c'.stepsOver tags span) := by
  have hgrammar : c'.grammar = c.grammar := hc'.grammar_eq.trans hc.grammar_eq.symm
  intro cat hcat
  unfold stepsOver at hcat ⊢
  split at hcat
  · rename_i hone
    rw [if_pos hone]
    obtain ⟨step, hstep⟩ := mem_catsOf.mp hcat
    obtain ⟨tag, htag, rule, hrule, rfl, rfl⟩ := mem_lexicalSteps.mp hstep
    rw [hc.beta_eq] at htag
    refine mem_catsOf.mpr ⟨_, mem_lexicalSteps.mpr ⟨tag, ?_, rule, ?_, rfl, rfl⟩⟩
    · rw [hc'.beta_eq]
      exact hwithin _ htag
    · rw [hgrammar]
      exact hrule
  · rename_i hone
    rw [if_neg hone]
    obtain ⟨step, hstep⟩ := mem_catsOf.mp hcat
    obtain ⟨i, hi, hjoin⟩ := List.mem_flatMap.mp hstep
    obtain ⟨hstart, hstop⟩ := hspan
    have hlt := List.mem_range.mp hi
    simp only [Span.length] at hlt
    obtain ⟨l, lv, r, rv, hl, hr, hrule⟩ := mem_catsOf_joinSteps.mp (mem_catsOf.mpr ⟨step, hjoin⟩)
    -- both parts of the split lie within the sentence
    have hl' := hmore.holds _ ⟨by simp only; omega, by simp only; omega⟩ _ _ hl
    have hr' := hmore.holds _ ⟨by simp only; omega, by simp only; omega⟩ _ _ hr
    rw [← hgrammar] at hrule
    obtain ⟨step', hstep'⟩ := mem_catsOf.mp (mem_catsOf_joinSteps.mpr ⟨l, lv, r, rv, hl', hr', hrule⟩)
    exact mem_catsOf.mpr ⟨step', List.mem_flatMap.mpr ⟨i, hi, hstep'⟩⟩

/-- Where the wide chart has room for a cell, the narrow one has it too, and stays the smaller one. -/
theorem NoMore.fill (hmore : NoMore s.length c c') (hc : Over g s beta c) (hc' : Over g s beta' c')
    (hwithin : ∀ word, tags.within word beta ⊆ tags.within word beta') {span : Span}
    (hspan : span.Within s.length) {d' : CoarseChart α} (h : fill tags maxItems c' span = .ok d') :
    ∃ d, fill tags maxItems c span = .ok d ∧ NoMore s.length d d' := by
  have hsub := catsOf_stepsOver_subset hc hc' hwithin hmore hspan
  have hlength : (cellItems g c.items.size span (c.stepsOver tags span)).length ≤
      (cellItems g c'.items.size span (c'.stepsOver tags span)).length := length_cellItems_le hsub
  have hsize := hmore.size_le
  rw [fill_eq, hc'.grammar_eq] at h
  split at h
  · rename_i hroom
    cases h
    rw [fill_eq, hc.grammar_eq, if_pos (by omega)]
    refine ⟨_, rfl, fun span' hspan' cat level hholds => ?_, ?_⟩
    · by_cases hne : span = span'
      · subst hne
        rw [holds_addCell_self hc hspan] at hholds
        exact (holds_addCell_self hc' hspan).mpr (catsOf_cellSteps_subset hsub level hholds)
      · rw [holds_addCell_of_ne hc hspan hspan' hne] at hholds
        exact (holds_addCell_of_ne hc' hspan hspan' hne).mpr (hmore.holds _ hspan' _ _ hholds)
    · simp only [addCell, Array.size_append, List.size_toArray]
      omega
  · cases h

theorem NoMore.run {spans : List Span} : ∀ {c c' d' : CoarseChart α}, NoMore s.length c c' →
    Over g s beta c → Over g s beta' c' →
    (∀ word, tags.within word beta ⊆ tags.within word beta') →
    (∀ span ∈ spans, span.Within s.length) → spans.foldlM (CoarseChart.fill tags maxItems) c' = .ok d' →
    ∃ d, spans.foldlM (CoarseChart.fill tags maxItems) c = .ok d ∧ NoMore s.length d d' := by
  induction spans with
  | nil =>
    intro c c' d' hmore _ _ _ _ h
    cases h
    exact ⟨c, rfl, hmore⟩
  | cons span spans ih =>
    intro c c' d' hmore hc hc' hwithin hin h
    have hspan := hin span (by simp)
    rw [List.foldlM_cons] at h ⊢
    obtain ⟨e', he', hrest'⟩ := except_bind_eq_ok.mp h
    obtain ⟨e, he, hmore'⟩ := hmore.fill hc hc' hwithin hspan he'
    obtain ⟨d, hd, hlast⟩ := ih hmore' (over_fill hc hspan he) (over_fill hc' hspan he') hwithin
      (fun span' h' => hin span' (by simp [h'])) hrest'
    exact ⟨d, except_bind_eq_ok.mpr ⟨e, he, hd⟩, hlast⟩

theorem filled_of_wider (hwithin : ∀ word, tags.within word beta ⊆ tags.within word beta')
    (h : filled g s tags beta' maxItems = .ok c') :
    ∃ c, filled g s tags beta maxItems = .ok c ∧ NoMore s.length c c' := by
  have hempty : NoMore s.length (empty g s beta) (empty g s beta') :=
    ⟨fun _ _ _ _ h => h, Nat.le_refl _⟩
  exact hempty.run (over_empty g s beta) (over_empty g s beta') hwithin
    (fun span => mem_spansOf.mp) h

theorem build_eq_abandoned_iff :
    build g s tags beta maxItems = .error .abandoned ↔ ∀ c, filled g s tags beta maxItems ≠ .ok c := by
  constructor
  · intro h c hc
    rw [build, hc] at h
    cases hspans : c.spans <;> simp [hspans, bind, Except.bind] at h
  · intro h
    by_contra hroom
    obtain ⟨c, hc⟩ := exists_filled hroom
    exact h c hc

theorem abandoned_of_wider (hwithin : ∀ word, tags.within word beta ⊆ tags.within word beta')
    (h : build g s tags beta maxItems = .error .abandoned) :
    build g s tags beta' maxItems = .error .abandoned := by
  rw [build_eq_abandoned_iff] at h ⊢
  intro c' hc'
  obtain ⟨c, hc, _⟩ := filled_of_wider hwithin hc'
  exact h c hc

/-- A narrow chart that is an answer leaves the wide one no way to fail but for want of room. -/
theorem build_of_wider (hwithin : ∀ word, tags.within word beta ⊆ tags.within word beta')
    (hc' : filled g s tags beta' maxItems = .ok c') (h : build g s tags beta maxItems = .ok c) :
    build g s tags beta' maxItems = .ok c' := by
  obtain ⟨d, hd, hmore⟩ := filled_of_wider hwithin hc'
  obtain ⟨hgrammar, hsentence, _, hwhole⟩ := build_ok h
  have hdc : d = c ∧ c.spans = true := by
    rw [build, hd] at h
    cases hspans : d.spans with
    | false => simp [hspans, bind, Except.bind] at h
    | true =>
      simp only [bind, Except.bind, hspans, if_true] at h
      cases h
      exact ⟨rfl, hspans⟩
  obtain ⟨rfl, hspans⟩ := hdc
  obtain ⟨cat, level, hstart, hholds⟩ := spans_iff.mp hspans
  have hover := (itemsOver_filled hc').1
  have hsame : c'.wholeSpan = d.wholeSpan := by
    simp only [wholeSpan, hover.sentence_eq, hsentence]
  have hholds' : c'.Holds c'.wholeSpan cat level := by
    rw [hsame]
    exact hmore.holds _ (hsentence ▸ hwhole) cat level hholds
  have hspans' : c'.spans = true := by
    refine spans_iff.mpr ⟨cat, level, ?_, hholds'⟩
    rw [hover.grammar_eq, ← hgrammar]
    exact hstart
  rw [build, hc']
  simp [bind, Except.bind, hspans']

theorem build_error {e : ParseFailure} (h : build g s tags beta maxItems = .error e) :
    e = .coarse ∨ e = .abandoned := by
  unfold build at h
  rcases except_bind_eq_error.mp h with hfilled | ⟨c, _, hrest⟩
  · exact .inr (filled_error hfilled)
  · cases hspans : c.spans with
    | false =>
      simp only [hspans] at hrest
      cases hrest
      exact .inl rfl
    | true =>
      simp only [hspans, if_true] at hrest
      cases hrest

/-- What the first beam of a ladder finds is no worse than what the last one finds. -/
theorem build_ne_coarse_of_wider (hwithin : ∀ word, tags.within word beta ⊆ tags.within word beta')
    (h : build g s tags beta maxItems = .ok c) : build g s tags beta' maxItems ≠ .error .coarse := by
  intro hcoarse
  have hroom : build g s tags beta' maxItems ≠ .error .abandoned := by
    rw [hcoarse]
    exact fun h => by cases h
  obtain ⟨c', hc'⟩ := exists_filled hroom
  rw [build_of_wider hwithin hc' h] at hcoarse
  cases hcoarse

end CoarseChart

open CoarseChart

section

variable {α : Type} [Scalar α] {g : Grammar} {s : Sentence} {tags : Supertags α} {maxItems : Nat}

theorem ladderChart_ok {betas : List α} {c : CoarseChart α} (h : ladderChart g s tags maxItems betas = .ok c) :
    ∃ beta, CoarseChart.build g s tags beta maxItems = .ok c := by
  induction betas with
  | nil => cases h
  | cons beta betas ih =>
    rw [ladderChart] at h
    split at h
    · exact ih h
    · exact ⟨beta, h⟩

theorem ladderChart_error {betas : List α} {e : ParseFailure}
    (h : ladderChart g s tags maxItems betas = .error e) : e = .coarse ∨ e = .abandoned := by
  induction betas with
  | nil =>
    cases h
    exact .inl rfl
  | cons beta betas ih =>
    rw [ladderChart] at h
    split at h
    · exact ih h
    · exact build_error h

theorem ParserConfig.coarseChart_ok {config : ParserConfig α} {c : CoarseChart α}
    (h : config.coarseChart g s tags = .ok c) :
    ∃ beta, CoarseChart.build g s tags beta config.maxItems = .ok c := by
  unfold coarseChart at h
  split at h
  · cases h
  · exact ladderChart_ok h

theorem ParserConfig.coarseChart_error {config : ParserConfig α} {e : ParseFailure}
    (h : config.coarseChart g s tags = .error e) : e = .coarse ∨ e = .abandoned := by
  unfold coarseChart at h
  split at h
  · cases h
    exact .inr rfl
  · exact ladderChart_error h

end

section

variable {g : Grammar} {s : Sentence} {tags : Supertags EReal} {maxItems : Nat}

/-- Along beams that do not rise a ladder fails as its last beam does, and succeeds where that does. -/
theorem ladderChart_last (htags : tags.NonNegative) {betas : List EReal} : ∀ {last : EReal},
    betas.Pairwise (· ≥ ·) → betas.getLast? = some last →
    (ladderChart g s tags maxItems betas = .error .coarse ↔
      build g s tags last maxItems = .error .coarse) ∧
    ((∃ c, build g s tags last maxItems = .ok c) →
      ∃ c, ladderChart g s tags maxItems betas = .ok c) := by
  induction betas with
  | nil =>
    intro last _ hlast
    cases hlast
  | cons beta betas ih =>
    intro last hdescending hlast
    obtain ⟨hfirst, hrest⟩ := List.pairwise_cons.mp hdescending
    have hle : last ≤ beta := by
      rcases List.mem_cons.mp (List.mem_of_getLast? hlast) with rfl | hmem
      · exact le_refl last
      · exact hfirst last hmem
    have hwithin := Supertags.within_subset htags hle
    rw [ladderChart]
    cases hbuild : build g s tags beta maxItems with
    | ok c =>
      -- the ladder ends here, and the last beam would find something or run out of room
      have hne := build_ne_coarse_of_wider hwithin hbuild
      have hok : (Except.ok c : Except ParseFailure (CoarseChart EReal)) ≠ .error .coarse :=
        fun h => by cases h
      exact ⟨iff_of_false hok hne, fun _ => ⟨c, rfl⟩⟩
    | error e =>
      rcases build_error hbuild with rfl | rfl
      · cases betas with
        | nil =>
          obtain rfl : beta = last := by simpa using hlast
          simp [ladderChart, hbuild]
        | cons next betas => exact ih hrest (by simpa using hlast)
      · -- the ladder gives up here, where the last beam has no room either
        have habandoned := abandoned_of_wider hwithin hbuild
        simp [habandoned]

/-- A wider beam loses no item and saves no room. A ladder of beams that do not rise may therefore stop at
the first chart that is abandoned: it finds nothing exactly if its last beam finds nothing, and an answer
wherever that has one. -/
theorem coarseChart_of_ladder (htags : tags.NonNegative) :
    (∀ beta beta' : EReal, beta' ≤ beta →
      (build g s tags beta' maxItems ≠ .error .abandoned →
        ∃ c c', filled g s tags beta maxItems = .ok c ∧ filled g s tags beta' maxItems = .ok c' ∧
          (∀ span, span.Within s.length → ∀ cat level,
            c.Holds span cat level → c'.Holds span cat level) ∧
          (build g s tags beta maxItems = .ok c → build g s tags beta' maxItems = .ok c')) ∧
      (build g s tags beta maxItems = .error .abandoned →
        build g s tags beta' maxItems = .error .abandoned)) ∧
    ∀ (config : ParserConfig EReal) (last : EReal), s.length ≤ config.maxLength →
      config.betas.Pairwise (· ≥ ·) → config.betas.getLast? = some last →
      (config.coarseChart g s tags = .error .coarse ↔
        build g s tags last config.maxItems = .error .coarse) ∧
      ((∃ c, build g s tags last config.maxItems = .ok c) →
        ∃ c, config.coarseChart g s tags = .ok c) := by
  refine ⟨fun beta beta' hle => ⟨fun hroom => ?_, ?_⟩, fun config last hlength hdescending hlast => ?_⟩
  · have hwithin := Supertags.within_subset htags hle
    obtain ⟨c', hc'⟩ := exists_filled hroom
    obtain ⟨c, hc, hmore⟩ := filled_of_wider hwithin hc'
    exact ⟨c, c', hc, hc', hmore.holds, build_of_wider hwithin hc'⟩
  · exact abandoned_of_wider (Supertags.within_subset htags hle)
  · rw [ParserConfig.coarseChart, if_neg (by omega)]
    exact ladderChart_last htags hdescending hlast

end

namespace SecondTag

/-! One word, of whose two categories the less likely one makes a sentence. -/

def categories : Array Category := #[.atom "N" none, .atom "NP" none]

def rules : List Rule :=
  [⟨0, .lexical, .lexical, 0, .terminal, 1⟩, ⟨1, .lexical, .lexical, 1, .terminal, 1⟩,
    ⟨2, .top, .top, 1, .unary 1, 1⟩]

def dogs : Sentence := ⟨#[⟨"dogs", "NNS", none⟩]⟩

noncomputable def half : EReal := ((1 / 2 : ℝ) : EReal)

noncomputable def tags : Supertags EReal := ⟨[[⟨0, 1⟩, ⟨1, half⟩]]⟩

noncomputable def config : ParserConfig EReal := ⟨[1, half], 250, .best, none, 10, 1⟩

theorem half_lt_one : half < 1 := by
  rw [half]
  exact_mod_cast (by norm_num : (1 / 2 : ℝ) < 1)

theorem half_nonneg : 0 ≤ half := by
  rw [half]
  exact_mod_cast (by norm_num : (0 : ℝ) ≤ 1 / 2)

theorem nonNegative : tags.NonNegative := by
  intro word tag htag
  match word with
  | 0 =>
    simp only [Supertags.all, tags, List.getElem?_cons_zero, Option.getD_some, List.mem_cons,
      List.not_mem_nil, or_false] at htag
    rcases htag with rfl | rfl
    · exact zero_le_one
    · exact half_nonneg
  | word + 1 => simp [Supertags.all, tags] at htag

theorem exists_codebook :
    ∃ g, Grammar.ofRules 7 categories rules [] = .ok g ∧ g.rules = rules.toArray := by
  have htexts : (categories.toList.map Category.text).Nodup := by decide
  obtain ⟨catIds, hids⟩ : ∃ catIds, Grammar.indexCategories 0 ∅ categories.toList = .ok catIds :=
    Grammar.indexCategories_ok (by simp) htexts
  unfold Grammar.ofRules
  rw [hids]
  exact ⟨_, rfl, rfl⟩

section

variable {g : Grammar} (hg : g.Indexed) (hrules : g.rules = rules.toArray)

include hg hrules

theorem build_dogs {beta : EReal} {steps : List (CatId × CoarseStep)}
    (hsteps : (empty g dogs beta).stepsOver tags ⟨0, 1⟩ = steps)
    (hroom : Nat.ble (grouped ⟨0, 1⟩ .base steps).length 10 = true) :
    build g dogs tags beta 10 =
      if (catsOf steps).any g.isStart then
        .ok ((empty g dogs beta).addCell ⟨0, 1⟩ (grouped ⟨0, 1⟩ .base steps).toArray)
      else .error .coarse := by
  have hunary (cat : CatId) : g.unaryRules cat = [] := by
    rw [hg.unaryRules, Grammar.idsWhere, hrules]
    rfl
  have hcell : cellItems g 0 ⟨0, 1⟩ steps = grouped ⟨0, 1⟩ .base steps := by
    rw [cellItems, unarySteps_eq_nil hunary]
    exact List.append_nil _
  have hfill : fill tags 10 (empty g dogs beta) ⟨0, 1⟩ =
      .ok ((empty g dogs beta).addCell ⟨0, 1⟩ (grouped ⟨0, 1⟩ .base steps).toArray) := by
    rw [fill_eq, hsteps]
    simp only [empty, List.size_toArray, List.length_nil, hcell, Nat.sub_zero]
    rw [if_pos (Nat.le_of_ble_eq_true hroom)]
  have hwhole : (⟨0, 1⟩ : Span).Within dogs.length := ⟨by decide, by decide⟩
  have hspans : ((empty g dogs beta).addCell ⟨0, 1⟩ (grouped ⟨0, 1⟩ .base steps).toArray).spans =
      (catsOf steps).any g.isStart := by
    have hitems := itemsOver_addCell_self (sized_empty g dogs beta) hwhole (grouped ⟨0, 1⟩ .base steps)
    have hsame : ((empty g dogs beta).addCell ⟨0, 1⟩
        (grouped ⟨0, 1⟩ .base steps).toArray).wholeSpan = ⟨0, 1⟩ := rfl
    have hany : ∀ items : List CoarseItem, ((numbered 0 items).any fun e => g.isStart e.2.cat) =
        items.any fun item => g.isStart item.cat := fun items => by
      conv => rhs; rw [← map_snd_numbered 0 items, List.any_map]
      rfl
    rw [spans, hsame, hitems]
    refine (hany _).trans ?_
    rw [grouped, List.any_map]
    rfl
  have hlist : spansOf dogs.length = [⟨0, 1⟩] := rfl
  rw [build, filled, hlist, List.foldlM_cons, hfill]
  simp only [bind, Except.bind, List.foldlM_nil, pure, Except.pure, hspans]
  rfl

theorem lexicalRule?_dogs {cat : Nat} (h : cat < 2) : g.lexicalRule? cat = some cat := by
  rw [hg.lexicalRule?, Grammar.idsWhere, hrules]
  obtain rfl | rfl : cat = 0 ∨ cat = 1 := by omega
  · rfl
  · rfl

theorem isStart_dogs : g.isStart 0 = false ∧ g.isStart 1 = true := by
  have hnone : g.topRule? 0 = none := by
    rw [hg.topRule?, Grammar.idsWhere, hrules]
    rfl
  have htop : g.topRule? 1 = some 2 := by
    rw [hg.topRule?, Grammar.idsWhere, hrules]
    rfl
  simp [Grammar.isStart, hnone, htop]

theorem build_one : build g dogs tags 1 10 = .error .coarse := by
  have hwithin : tags.within 0 1 = [⟨0, 1⟩] := by
    simp [Supertags.within, Supertags.best?, Supertags.all, tags, half_lt_one]
  have hsteps : (empty g dogs (1 : EReal)).stepsOver tags ⟨0, 1⟩ = [(0, .lexical 0 0)] := by
    simp [stepsOver, Span.length, lexicalSteps, empty, hwithin,
      lexicalRule?_dogs hg hrules (by decide : 0 < 2)]
  rw [build_dogs hg hrules hsteps rfl]
  simp [catsOf, (isStart_dogs hg hrules).1]

theorem build_half : ∃ c, build g dogs tags half 10 = .ok c := by
  have hwithin : tags.within 0 half = [⟨0, 1⟩, ⟨1, half⟩] := by
    simp [Supertags.within, Supertags.best?, Supertags.all, tags, half_lt_one.le]
  have hsteps : (empty g dogs half).stepsOver tags ⟨0, 1⟩ = [(0, .lexical 0 0), (1, .lexical 1 0)] := by
    simp [stepsOver, Span.length, lexicalSteps, empty, hwithin,
      lexicalRule?_dogs hg hrules (by decide : 0 < 2), lexicalRule?_dogs hg hrules (by decide : 1 < 2)]
  have hcats : catsOf [((0 : CatId), CoarseStep.lexical 0 0), (1, .lexical 1 0)] = [0, 1] := by decide
  rw [build_dogs hg hrules hsteps rfl, hcats]
  simp [(isStart_dogs hg hrules).2]

end

theorem coarseChart_of_ladder_dogs : ∃ g, Grammar.ofRules 7 categories rules [] = .ok g ∧
    tags.NonNegative ∧ half ≤ 1 ∧ build g dogs tags half 10 ≠ .error .abandoned ∧
    (∃ c c', filled g dogs tags 1 10 = .ok c ∧ filled g dogs tags half 10 = .ok c' ∧
      (∀ span, span.Within dogs.length → ∀ cat level,
        c.Holds span cat level → c'.Holds span cat level) ∧
      (build g dogs tags 1 10 = .ok c → build g dogs tags half 10 = .ok c')) ∧
    dogs.length ≤ config.maxLength ∧ config.betas.Pairwise (· ≥ ·) ∧
    config.betas.getLast? = some half ∧ build g dogs tags 1 10 = .error .coarse ∧
    ∃ c, config.coarseChart g dogs tags = .ok c := by
  obtain ⟨g, hofRules, hrules⟩ := exists_codebook
  have hg := Grammar.indexed_ofRules hofRules
  obtain ⟨c, hhalf⟩ := build_half hg hrules
  have hroom : build g dogs tags half 10 ≠ .error .abandoned := by
    rw [hhalf]
    exact fun h => by cases h
  have hdescending : config.betas.Pairwise (· ≥ ·) := by simp [config, half_lt_one.le]
  have hlength : dogs.length ≤ config.maxLength := by decide
  have hlast : config.betas.getLast? = some half := rfl
  obtain ⟨hwider, hladder⟩ := @coarseChart_of_ladder g dogs tags 10 nonNegative
  exact ⟨g, hofRules, nonNegative, half_lt_one.le, hroom, (hwider 1 half half_lt_one.le).1 hroom, hlength,
    hdescending, hlast, build_one hg hrules,
    (hladder config half hlength hdescending hlast).2 ⟨c, hhalf⟩⟩

end SecondTag

end Categorial
