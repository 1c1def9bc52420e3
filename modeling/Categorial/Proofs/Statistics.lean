import Categorial.Proofs.Coarse.Licensed
import Categorial.Proofs.Dependency.Set
import Categorial.Proofs.ExactScalar
import Categorial.Proofs.Grammar.Contents
import Categorial.Statistics
import Mathlib.Logic.Function.Iterate
set_option autoImplicit false

/-!
The counters of a run agree with each other however it was split up: every sentence came out one way, no more is
right than was asked for or given, and all rates are shares of one. Only the width of the counters sets a limit.
-/

namespace Categorial

namespace Statistics

@[simp] theorem zero_add (s : Statistics) : zero.add s = s := by
  simp [zero, add]

@[simp] theorem add_zero (s : Statistics) : s.add zero = s := by
  simp [zero, add]

theorem add_assoc (s t u : Statistics) : (s.add t).add u = s.add (t.add u) := by
  simp [add, Nat.add_assoc]

theorem add_left_comm (s t u : Statistics) : s.add (t.add u) = t.add (s.add u) := by
  simp [add, Nat.add_left_comm]

instance : LeftCommutative add := ⟨add_left_comm⟩

theorem inWords_add_left (s t : Statistics) : (s.inWords.add t).inWords = (s.add t).inWords := by
  simp [inWords, add]

theorem inWords_eq_self {s : Statistics} (h : ∀ n ∈ s.counters, n < Nat.pow 2 64) : s.inWords = s := by
  simp only [counters, List.forall_mem_cons, Nat.pow_eq] at h
  simp only [inWords, Nat.pow_eq, Nat.mod_eq_of_lt, h]

/-- The counters agree with each other. -/
structure Consistent (s : Statistics) : Prop where
  sentences : s.sentences = s.parsed + s.coarseFailures + s.fineFailures + s.abandoned + s.unparseable
  labeled : s.correctLabeled ≤ min s.goldDeps s.parserDeps
  unlabeled : s.correctUnlabeled ≤ min s.goldPairs s.parserPairs
  parserPairs : s.parserPairs ≤ s.parserDeps
  goldPairs : s.goldPairs ≤ s.goldDeps
  tokens : s.correctTokens ≤ s.tokens

theorem consistent_zero : zero.Consistent where
  sentences := rfl
  labeled := Nat.zero_le _
  unlabeled := Nat.zero_le _
  parserPairs := Nat.le_refl _
  goldPairs := Nat.le_refl _
  tokens := Nat.le_refl _

theorem Consistent.add {s t : Statistics} (hs : s.Consistent) (ht : t.Consistent) : (s.add t).Consistent where
  sentences := by
    have hs' := hs.sentences
    have ht' := ht.sentences
    simp only [Statistics.add]
    omega
  labeled := by
    have hs' := hs.labeled
    have ht' := ht.labeled
    simp only [Statistics.add]
    omega
  unlabeled := by
    have hs' := hs.unlabeled
    have ht' := ht.unlabeled
    simp only [Statistics.add]
    omega
  parserPairs := Nat.add_le_add hs.parserPairs ht.parserPairs
  goldPairs := Nat.add_le_add hs.goldPairs ht.goldPairs
  tokens := Nat.add_le_add hs.tokens ht.tokens

theorem consistent_ofUnparseable : ofUnparseable.Consistent where
  sentences := rfl
  labeled := Nat.zero_le _
  unlabeled := Nat.zero_le _
  parserPairs := Nat.le_refl _
  goldPairs := Nat.le_refl _
  tokens := Nat.le_refl _

theorem correctTags_le (predicted expected : List Supertag) :
    correctTags predicted expected ≤ expected.length := by
  refine (List.length_filter_le ..).trans ?_
  rw [List.length_zip]
  exact Nat.min_le_right ..

theorem sentences_ofOutcome (outcome : Except ParseFailure Derivation) :
    (ofOutcome outcome).sentences = (ofOutcome outcome).parsed + (ofOutcome outcome).coarseFailures +
      (ofOutcome outcome).fineFailures + (ofOutcome outcome).abandoned + (ofOutcome outcome).unparseable := by
  match outcome with
  | .ok _ => rfl
  | .error .coarse => rfl
  | .error .fine => rfl
  | .error .abandoned => rfl

theorem consistent_ofSentence (g : Grammar) (length : Nat) (outcome : Except ParseFailure Derivation)
    (gold : Option Derivation) : (ofSentence g length outcome gold).Consistent := by
  have hours : DependencySet.Ascending (outcome.toOption.elim .empty g.dependencies).toList := by
    cases outcome with
    | error _ => exact List.Pairwise.nil
    | ok t => exact g.ascending_dependencies t
  have hnone : (ofOutcome outcome).correctLabeled = 0 ∧ (ofOutcome outcome).correctUnlabeled = 0 ∧
      (ofOutcome outcome).goldPairs = 0 ∧ (ofOutcome outcome).correctTokens = 0 := by
    match outcome with
    | .ok _ => exact ⟨rfl, rfl, rfl, rfl⟩
    | .error .coarse => exact ⟨rfl, rfl, rfl, rfl⟩
    | .error .fine => exact ⟨rfl, rfl, rfl, rfl⟩
    | .error .abandoned => exact ⟨rfl, rfl, rfl, rfl⟩
  obtain ⟨hlabeled, hunlabeled, hpairs, htokens⟩ := hnone
  cases gold with
  | none => exact {
      sentences := sentences_ofOutcome outcome
      labeled := hlabeled.trans_le (Nat.zero_le _)
      unlabeled := hunlabeled.trans_le (Nat.zero_le _)
      parserPairs := DependencySet.length_pairs_le _
      goldPairs := hpairs.trans_le (Nat.zero_le _)
      tokens := htokens.trans_le (Nat.zero_le _) }
  | some gold => exact {
      sentences := sentences_ofOutcome outcome
      labeled := (DependencySet.labeledMatches_le hours _).trans_eq (Nat.min_comm ..)
      unlabeled := (DependencySet.unlabeledMatches_le _ _).trans_eq (Nat.min_comm ..)
      parserPairs := DependencySet.length_pairs_le _
      goldPairs := DependencySet.length_pairs_le _
      tokens := correctTags_le _ _ }

/-! Rates -/

theorem ratio_eq (num den : Nat) : ratio num den = ((num / den : ℝ) : EReal) := by
  unfold ratio
  split
  · rename_i h
    simp [h]
  · rfl

theorem coe_mem_Icc {q : ℝ} (h : q ∈ Set.Icc 0 1) : (q : EReal) ∈ Set.Icc 0 1 :=
  ⟨EReal.coe_nonneg.mpr h.1, by exact_mod_cast h.2⟩

theorem exists_coe_of_mem_Icc {x : EReal} (h : x ∈ Set.Icc 0 1) : ∃ q ∈ Set.Icc (0 : ℝ) 1, (q : EReal) = x := by
  have hx : (x.toReal : EReal) = x := EReal.coe_toReal (h.2.trans_lt (EReal.coe_lt_top 1)).ne
    (EReal.bot_lt_zero.trans_le h.1).ne'
  rw [← hx] at h
  exact ⟨x.toReal, ⟨EReal.coe_nonneg.mp h.1, by exact_mod_cast h.2⟩, hx⟩

theorem ratio_mem {num den : Nat} (h : num ≤ den) : (ratio num den : EReal) ∈ Set.Icc 0 1 := by
  rw [ratio_eq]
  refine coe_mem_Icc ⟨by positivity, div_le_one_of_le₀ ?_ (Nat.cast_nonneg den)⟩
  exact_mod_cast h

theorem harmonic_mem {p r : EReal} (hp : p ∈ Set.Icc 0 1) (hr : r ∈ Set.Icc 0 1) :
    harmonic p r ∈ Set.Icc 0 1 := by
  obtain ⟨p, ⟨hp0, hp1⟩, rfl⟩ := exists_coe_of_mem_Icc hp
  obtain ⟨r, ⟨hr0, hr1⟩, rfl⟩ := exists_coe_of_mem_Icc hr
  have heq : harmonic (p : EReal) (r : EReal) = ((2 * p * r / (p + r) : ℝ) : EReal) := by
    have hsum : (p : EReal) + r = ((p + r : ℝ) : EReal) := rfl
    have htwo : (Scalar.ofNat 2 : EReal) = ((2 : ℝ) : EReal) := rfl
    unfold harmonic
    rw [hsum, htwo, ← EReal.coe_mul, ← EReal.coe_mul]
    dsimp only
    split
    · rename_i h
      rw [Bool.and_eq_true, ExactScalar.le_iff, ExactScalar.le_iff, ExactScalar.zero_eq] at h
      have hzero : p + r = 0 := EReal.coe_eq_zero.mp (le_antisymm h.1 h.2)
      rw [hzero, div_zero, ExactScalar.zero_eq, EReal.coe_zero]
    · exact (EReal.coe_div (2 * p * r) (p + r)).symm
  have hbound : 2 * p * r ≤ p + r := by nlinarith
  rw [heq]
  exact coe_mem_Icc ⟨by positivity, div_le_one_of_le₀ hbound (by positivity)⟩

/-- What is shown of the counters as shares of one. -/
noncomputable def rates (s : Statistics) : List EReal :=
  [s.coverage, s.labeledPrecision, s.labeledRecall, s.labeledF, ratio s.correctUnlabeled s.parserPairs,
    ratio s.correctUnlabeled s.goldPairs, s.unlabeledF, s.tagAccuracy]

theorem Consistent.rates_mem {s : Statistics} (h : s.Consistent) : ∀ x ∈ s.rates, x ∈ Set.Icc 0 1 := by
  have hcoverage : s.parsed ≤ s.sentences := by
    have hsentences := h.sentences
    omega
  have hprecision := ratio_mem (h.labeled.trans (Nat.min_le_right ..))
  have hrecall := ratio_mem (h.labeled.trans (Nat.min_le_left ..))
  have hours := ratio_mem (h.unlabeled.trans (Nat.min_le_right ..))
  have htheirs := ratio_mem (h.unlabeled.trans (Nat.min_le_left ..))
  simp only [rates, List.forall_mem_cons]
  exact ⟨ratio_mem hcoverage, hprecision, hrecall, harmonic_mem hprecision hrecall, hours, htheirs,
    harmonic_mem hours htheirs, ratio_mem h.tokens, by simp⟩

/-! Accumulators by the calls behind them -/

/-- What an accumulator is told of a sentence. -/
inductive Report where
  | sentence (g : Grammar) (length : Nat) (outcome : Except ParseFailure Derivation) (gold : Option Derivation)
  | unparseable

def Report.counts : Report → Statistics
  | .sentence g length outcome gold => ofSentence g length outcome gold
  | .unparseable => ofUnparseable

theorem Report.consistent_counts (r : Report) : r.counts.Consistent := by
  cases r with
  | sentence g length outcome gold => exact consistent_ofSentence g length outcome gold
  | unparseable => exact consistent_ofUnparseable

inductive Account where
  | fresh
  | record (before : Account) (report : Report)
  | merge (before other : Account)

namespace Account

/-- What the counters show, which hold 64 bits each. -/
def counters : Account → Statistics
  | fresh => zero
  | record before report => (before.counters.add report.counts).inWords
  | merge before other => (before.counters.add other.counters).inWords

def reports : Account → List Report
  | fresh => []
  | record before report => before.reports ++ [report]
  | merge before other => before.reports ++ other.reports

/-- What counters without a limit would show. -/
def counts (account : Account) : Statistics := (account.reports.map Report.counts).foldr add zero

theorem foldr_add_append (xs ys : List Statistics) :
    (xs ++ ys).foldr add zero = (xs.foldr add zero).add (ys.foldr add zero) := by
  induction xs with
  | nil => rw [List.nil_append, List.foldr_nil, zero_add]
  | cons x xs ih => rw [List.cons_append, List.foldr_cons, List.foldr_cons, ih, add_assoc]

theorem counts_record (before : Account) (report : Report) :
    (record before report).counts = before.counts.add report.counts := by
  rw [counts, reports, List.map_append, foldr_add_append, List.map_singleton, List.foldr_cons, List.foldr_nil,
    add_zero, counts]

theorem counts_merge (before other : Account) :
    (merge before other).counts = before.counts.add other.counts := by
  rw [counts, reports, List.map_append, foldr_add_append, counts, counts]

theorem counters_eq_inWords (account : Account) : account.counters = account.counts.inWords := by
  induction account with
  | fresh => rfl
  | record before report ih => rw [counters, ih, inWords_add_left, counts_record]
  | merge before other ih ih' => rw [counters, ih, ih', inWords_add, counts_merge]

theorem consistent_counts (account : Account) : account.counts.Consistent := by
  induction account with
  | fresh => exact consistent_zero
  | record before report ih => exact counts_record before report ▸ ih.add report.consistent_counts
  | merge before other ih ih' => exact counts_merge before other ▸ ih.add ih'

/-- It does not matter in which order sentences are told, nor to which accumulators on the way. -/
theorem counters_eq_of_perm {account account' : Account} (h : account.reports.Perm account'.reports) :
    account.counters = account'.counters := by
  have hcounts : account.counts = account'.counts := (h.map Report.counts).foldr_eq zero
  rw [counters_eq_inWords, counters_eq_inWords, hcounts]

def recorded (reports : List Report) : Account := reports.foldl record fresh

def merged (accounts : List Account) : Account := accounts.foldl merge fresh

theorem reports_recorded (rs : List Report) : (recorded rs).reports = rs := by
  induction rs using List.reverseRecOn with
  | nil => rfl
  | append_singleton rs r ih =>
    rw [recorded, List.foldl_concat]
    exact congrArg (· ++ [r]) ih

theorem reports_merged (accounts : List Account) : (merged accounts).reports = accounts.flatMap reports := by
  induction accounts using List.reverseRecOn with
  | nil => rfl
  | append_singleton accounts account ih =>
    rw [merged, List.foldl_concat, List.flatMap_append, List.flatMap_singleton]
    exact congrArg (· ++ account.reports) ih

/-- As long as no counter is full, the counters agree with each other, whatever the calls; and however sentences
are shared out among accumulators that are merged in the end, full ones included, the counters are the same. -/
theorem adds_up :
    (∀ account : Account, (∀ n ∈ account.counts.counters, n < Nat.pow 2 64) →
      account.counters = account.counts ∧ account.counters.Consistent ∧
        ∀ x ∈ account.counters.rates, x ∈ Set.Icc 0 1) ∧
    ∀ (rs : List Report) (parts : List (List Report)), parts.flatten.Perm rs →
      (merged (parts.map recorded)).counters = (recorded rs).counters := by
  constructor
  · intro account hroom
    have hcounters : account.counters = account.counts := by
      rw [counters_eq_inWords, inWords_eq_self hroom]
    have hconsistent : account.counters.Consistent := hcounters ▸ account.consistent_counts
    exact ⟨hcounters, hconsistent, hconsistent.rates_mem⟩
  · intro rs parts hparts
    refine counters_eq_of_perm ?_
    have hreports : reports ∘ recorded = id := funext reports_recorded
    rwa [reports_merged, reports_recorded, List.flatMap_def, List.map_map, hreports, List.map_id]

def doubled (n : Nat) (account : Account) : Account := (fun a => a.merge a)^[n] account

theorem tokens_doubled (n : Nat) (account : Account) :
    (doubled n account).counts.tokens = 2 ^ n * account.counts.tokens ∧
      (doubled n account).counts.correctTokens = 2 ^ n * account.counts.correctTokens := by
  induction n with
  | zero => simp [doubled]
  | succ n ih =>
    obtain ⟨htokens, hcorrect⟩ := ih
    have hsucc : doubled (n + 1) account = (doubled n account).merge (doubled n account) :=
      Function.iterate_succ_apply' _ n account
    rw [hsucc, counts_merge, add, htokens, hcorrect, pow_succ]
    constructor
    · ring
    · ring

end Account

end Statistics

namespace Sample

open Statistics

/-- The sentence fails, and then it gets its gold derivation. -/
def failedAndParsed (g : Grammar) : Account :=
  (Account.fresh.record (.sentence g 2 (.error .coarse) (some goldTree))).record
    (.sentence g 2 (.ok goldTree) (some goldTree))

theorem dependencies_goldTree {g : Grammar} (hg : Grammar.ofRules 7 categories rules [] = .ok g) :
    g.dependencies goldTree = ⟨[⟨1, 0, 1, 1⟩]⟩ := by
  obtain ⟨_, _, ⟨hcategories, _, hmarkups, _, _⟩, hrules⟩ := Grammar.contents_ofRules hg
  have hrule : g.rule? 2 = some ⟨2, .rightBinary, .bwdApp, 2, .binary 0 1, 1⟩ := by
    rw [Grammar.rule?, ← Array.getElem?_toList, hrules]
    rfl
  have hdecode : (g.decode goldTree).2 = [⟨1, 0, 1, 1⟩] := by
    simp only [goldTree, Grammar.decode, hrule, Predicate.lexical, Grammar.arityOf, Grammar.markup,
      Grammar.category?, hcategories, hmarkups]
    rfl
  rw [Grammar.dependencies, hdecode]
  rfl

theorem counts_failedAndParsed {g : Grammar} (hg : Grammar.ofRules 7 categories rules [] = .ok g) :
    (failedAndParsed g).counts = ⟨2, 1, 1, 0, 0, 0, 2, 1, 1, 1, 2, 1, 4, 2⟩ := by
  have hpairs : DependencySet.pairs ⟨[⟨1, 0, 1, 1⟩]⟩ = [(0, 1)] := by
    simp [DependencySet.pairs, Dependency.pair, List.eraseReps, List.eraseRepsBy, List.eraseRepsBy.loop]
  have hempty : DependencySet.empty.pairs = [] := by
    simp [DependencySet.pairs, DependencySet.empty, List.eraseReps, List.eraseRepsBy]
  rw [failedAndParsed, Account.counts_record, Account.counts_record]
  simp only [Report.counts, ofSentence, Except.toOption, Option.elim_some, Option.elim_none,
    dependencies_goldTree hg, DependencySet.unlabeledMatches, hpairs, hempty]
  rfl

theorem adds_up_failed_and_parsed : ∃ g, Grammar.ofRules 7 categories rules [] = .ok g ∧
    (failedAndParsed g).counters.Consistent ∧
    (Account.merged ([[.unparseable], [.sentence g 2 (.ok goldTree) none]].map Account.recorded)).counters =
      (Account.recorded [.sentence g 2 (.ok goldTree) none, .unparseable]).counters := by
  obtain ⟨g, hg, -, -⟩ := exists_grammar
  have hroom : ∀ n ∈ (failedAndParsed g).counts.counters, n < Nat.pow 2 64 := by
    rw [counts_failedAndParsed hg]
    decide
  exact ⟨g, hg, (Account.adds_up.1 (failedAndParsed g) hroom).2.1,
    Account.adds_up.2 [.sentence g 2 (.ok goldTree) none, .unparseable] [[.unparseable],
      [.sentence g 2 (.ok goldTree) none]] (.swap ..)⟩

theorem not_consistent_doubled : ∃ g, Grammar.ofRules 7 categories rules [] = .ok g ∧
    ¬(Account.doubled 62 (failedAndParsed g)).counters.Consistent := by
  obtain ⟨g, hg, -, -⟩ := exists_grammar
  obtain ⟨htokens, hcorrect⟩ := Account.tokens_doubled 62 (failedAndParsed g)
  rw [counts_failedAndParsed hg] at htokens hcorrect
  refine ⟨g, hg, fun h => ?_⟩
  have hle := h.tokens
  simp only [Account.counters_eq_inWords, inWords, htokens, hcorrect] at hle
  exact absurd hle (by decide)

end Sample

end Categorial
