import Categorial.Model.Perceptron
import Categorial.Proofs.Feature.WeightFile
set_option autoImplicit false

/-!
What reading a weight file leaves behind when it fails. Features keep their numbers, weights stay, and what was
appended stays too. So the features are those from before exactly if no line got to appending one, and otherwise a
trained model has fewer weights than features from then on and cannot be written.
-/

namespace Categorial

namespace FeatureTable

/-- Nothing is taken out of a table and nothing gets another number; features may be appended. -/
structure Appended (t t' : FeatureTable) : Prop extends t.Extends t' where
  keys : t.keys.toList <+: t'.keys.toList
  frozen : t'.frozen = t.frozen

theorem Appended.refl (t : FeatureTable) : t.Appended t := ⟨.refl t, List.prefix_rfl, rfl⟩

theorem Appended.trans {t t' t'' : FeatureTable} (h : t.Appended t') (h' : t'.Appended t'') : t.Appended t'' :=
  ⟨h.toExtends.trans h'.toExtends, h.keys.trans h'.keys, h'.frozen.trans h.frozen⟩

theorem Appended.size_le {t t' : FeatureTable} (h : t.Appended t') : t.size ≤ t'.size := h.keys.length_le

theorem appended_insert {t : FeatureTable} {key : Feature} (hnew : t.get? key = none) :
    t.Appended (t.insert key) :=
  ⟨extends_insert hnew, ⟨[key], Array.toList_push.symm⟩, rfl⟩

/-- The table once the strings of a description have numbers. -/
def numbering (t : FeatureTable) (d : Description) : FeatureTable := { t with symbols := (d.number t.symbols).2 }

@[simp] theorem numbering_plain (t : FeatureTable) (key : Feature) : t.numbering (.plain key) = t := rfl

theorem appended_numbering (t : FeatureTable) (d : Description) : t.Appended (t.numbering d) :=
  ⟨⟨fun _ _ h => h, (d.number_spec t.symbols).1⟩, List.prefix_rfl, rfl⟩

end FeatureTable

namespace WeightFile

/-- The line has a number, a weight and a description that can be read. -/
def Reads (α : Type) [Written α] (g : Grammar) (s : List Char) (index : Nat) (d : Description) : Prop :=
  ∃ number weight description, ∃ x : α, Text.splitThree '\t' s = [number, weight, description] ∧
    Text.readId number = .ok index ∧ Written.read weight = .ok x ∧ Description.read g description = .ok d

/-- Some line has a new feature, and the lines before it are blank or have features of the table under their
numbers. -/
inductive Adds (α : Type) [Written α] (g : Grammar) : FeatureTable → List Text.Line → Prop
  | new {t : FeatureTable} {s : List Char} {rest : List Text.Line} {index : Nat} {d : Description} :
      (Text.trim s).isEmpty = false → Reads α g s index d → t.get? (d.number t.symbols).1 = none →
      Adds α g t (some s :: rest)
  | known {t : FeatureTable} {s : List Char} {rest : List Text.Line} {index : Nat} {d : Description} :
      (Text.trim s).isEmpty = false → Reads α g s index d → t.get? (d.number t.symbols).1 = some index →
      Adds α g (t.numbering d) rest → Adds α g t (some s :: rest)
  | blank {t : FeatureTable} {s : List Char} {rest : List Text.Line} :
      (Text.trim s).isEmpty = true → Adds α g t rest → Adds α g t (some s :: rest)

section

variable {α : Type} [Scalar α] [Written α] {g : Grammar} {path : String}

theorem appended_place (t : FeatureTable) (line index : Nat) (description : String) (key : Feature) :
    t.Appended (place t line index description key).1 := by
  unfold place
  cases hkey : t.get? key with
  | some here =>
    simp only
    split <;> exact .refl t
  | none =>
    simp only
    split
    · exact .refl t
    · split <;> exact FeatureTable.appended_insert hkey

theorem readLine_of_reads {s : List Char} {index : Nat} {d : Description} (h : Reads α g s index d) (path : String)
    (t : FeatureTable) (weights : Array α) (line : Nat) : ∃ (description : String) (x : α),
      readLine g path t weights line s =
        ((place (t.numbering d) line index description (d.number t.symbols).1).1,
          (place (t.numbering d) line index description (d.number t.symbols).1).2.map
            fun _ => setWeight weights index x) := by
  obtain ⟨number, weight, description, x, hsplit, hnumber, hweight, hread⟩ := h
  refine ⟨String.ofList description, x, ?_⟩
  have hdescription : t.readDescription g description = .ok ((d.number t.symbols).1, t.numbering d) := by
    rw [FeatureTable.readDescription, hread]
    rfl
  rw [readLine, hsplit]
  simp only [hnumber, hweight, hdescription]

theorem readLine_of_not_reads {s : List Char} (h : ¬ ∃ index d, Reads α g s index d) (path : String)
    (t : FeatureTable) (weights : Array α) (line : Nat) :
    ∃ e, readLine g path t weights line s = (t, .error e) := by
  unfold readLine
  split
  · rename_i number weight description hsplit
    simp only
    split
    · exact ⟨_, rfl⟩
    · rename_i index hnumber
      split
      · exact ⟨_, rfl⟩
      · rename_i x hweight
        cases hread : Description.read g description with
        | ok d => exact absurd ⟨index, d, number, weight, description, x, hsplit, hnumber, hweight, hread⟩ h
        | error e =>
          rw [FeatureTable.readDescription, hread]
          exact ⟨e, rfl⟩
  · exact ⟨_, rfl⟩

theorem appended_readLine (t : FeatureTable) (weights : Array α) (line : Nat) (s : List Char) :
    t.Appended (readLine g path t weights line s).1 := by
  by_cases hreads : ∃ index d, Reads α g s index d
  · obtain ⟨index, d, hreads⟩ := hreads
    obtain ⟨description, x, hline⟩ := readLine_of_reads hreads path t weights line
    rw [hline]
    exact (t.appended_numbering d).trans (appended_place _ _ _ _ _)
  · obtain ⟨e, hline⟩ := readLine_of_not_reads hreads path t weights line
    rw [hline]
    exact .refl t

theorem readLines_cons {s : List Char} (hs : (Text.trim s).isEmpty = false) (t : FeatureTable) (weights : Array α)
    (line : Nat) (rest : List Text.Line) : readLines g path t weights line (some s :: rest) =
      match readLine g path t weights line s with
      | (t, .error e) => (t, .error e)
      | (t, .ok weights) => readLines g path t weights (line + 1) rest := by
  rw [readLines, hs]
  rfl

theorem readLines_blank {s : List Char} (hs : (Text.trim s).isEmpty = true) (t : FeatureTable) (weights : Array α)
    (line : Nat) (rest : List Text.Line) : readLines g path t weights line (some s :: rest) =
      readLines g path t weights (line + 1) rest := by
  rw [readLines, hs]
  rfl

/-- What a line leaves behind is there at the end, if the lines after it keep what there is. -/
theorem appended_readLines_cons {s : List Char} (hs : (Text.trim s).isEmpty = false) {rest : List Text.Line}
    (hrest : ∀ (t : FeatureTable) (weights : Array α) (line : Nat),
      t.Appended (readLines g path t weights line rest).1)
    (t : FeatureTable) (weights : Array α) (line : Nat) :
    (readLine g path t weights line s).1.Appended (readLines g path t weights line (some s :: rest)).1 := by
  rw [readLines_cons hs]
  cases readLine g path t weights line s with
  | mk t' result =>
    cases result with
    | error e => exact .refl t'
    | ok weights' => exact hrest t' weights' (line + 1)

theorem appended_readLines (lines : List Text.Line) : ∀ (t : FeatureTable) (weights : Array α) (line : Nat),
    t.Appended (readLines g path t weights line lines).1 := by
  induction lines with
  | nil => exact fun t _ _ => .refl t
  | cons s lines ih =>
    intro t weights line
    cases s with
    | none => exact .refl t
    | some s =>
      cases hs : (Text.trim s).isEmpty with
      | true =>
        rw [readLines_blank hs]
        exact ih t weights (line + 1)
      | false => exact (appended_readLine t weights line s).trans (appended_readLines_cons hs ih t weights line)

theorem readLines_agreeing {s : List Char} (hs : (Text.trim s).isEmpty = false) {t : FeatureTable} {index : Nat}
    {d : Description} (hreads : Reads α g s index d) (hknown : t.get? (d.number t.symbols).1 = some index)
    (path : String) (weights : Array α) (line : Nat) (rest : List Text.Line) : ∃ weights' : Array α,
      readLines g path t weights line (some s :: rest) =
        readLines g path (t.numbering d) weights' (line + 1) rest := by
  obtain ⟨description, x, hline⟩ := readLine_of_reads hreads path t weights line
  have hfound : (t.numbering d).get? (d.number t.symbols).1 = some index := hknown
  have hplace : place (t.numbering d) line index description (d.number t.symbols).1 = (t.numbering d, .ok ()) := by
    rw [place, hfound]
    simp only [if_true]
  rw [hplace] at hline
  exact ⟨setWeight weights index x, by rw [readLines_cons hs, hline]; rfl⟩

theorem table_readLines_stopped {s : List Char} (hs : (Text.trim s).isEmpty = false) {t : FeatureTable} {index : Nat}
    {d : Description} (hreads : Reads α g s index d) (hother : t.get? (d.number t.symbols).1 ≠ some index)
    (hnew : t.frozen = false → t.get? (d.number t.symbols).1 ≠ none) (weights : Array α) (line : Nat)
    (rest : List Text.Line) : (readLines g path t weights line (some s :: rest)).1 = t.numbering d := by
  obtain ⟨description, x, hline⟩ := readLine_of_reads hreads path t weights line
  obtain ⟨e, hplace⟩ : ∃ e, place (t.numbering d) line index description (d.number t.symbols).1 =
      (t.numbering d, .error e) := by
    have hget : (t.numbering d).get? (d.number t.symbols).1 = t.get? (d.number t.symbols).1 := rfl
    rw [place, hget]
    cases hfound : t.get? (d.number t.symbols).1 with
    | some here =>
      have hne : here ≠ index := fun heq => hother (heq ▸ hfound)
      exact ⟨_, if_neg hne⟩
    | none =>
      have hfrozen : (t.numbering d).frozen = true := by
        by_contra hopen
        exact hnew (Bool.eq_false_iff.mpr hopen) hfound
      exact ⟨_, if_pos hfrozen⟩
  rw [hplace] at hline
  rw [readLines_cons hs, hline]
  rfl

theorem Adds.size_lt {t : FeatureTable} {lines : List Text.Line} (h : Adds α g t lines) :
    t.frozen = false → ∀ (weights : Array α) (line : Nat),
      t.size < (readLines g path t weights line lines).1.size := by
  induction h with
  | @new t s rest index d hs hreads hnone =>
    intro hopen weights line
    obtain ⟨description, x, hline⟩ := readLine_of_reads hreads path t weights line
    have hget : (t.numbering d).get? (d.number t.symbols).1 = none := hnone
    have hfrozen : (t.numbering d).frozen = false := hopen
    have hsize : t.size < ((t.numbering d).insert (d.number t.symbols).1).size := by
      simp [FeatureTable.size, FeatureTable.insert, FeatureTable.numbering]
    have hplace : (place (t.numbering d) line index description (d.number t.symbols).1).1 =
        (t.numbering d).insert (d.number t.symbols).1 := by
      rw [place, hget]
      simp only [hfrozen, Bool.false_eq_true, if_false]
      split <;> rfl
    have hrest : (readLine g path t weights line s).1.Appended (readLines g path t weights line (some s :: rest)).1 :=
      appended_readLines_cons hs (appended_readLines rest) t weights line
    rw [hline, hplace] at hrest
    exact Nat.lt_of_lt_of_le hsize hrest.size_le
  | known hs hreads hknown _ ih =>
    intro hopen weights line
    obtain ⟨weights', hrun⟩ := readLines_agreeing hs hreads hknown path weights line _
    rw [hrun]
    exact ih hopen weights' (line + 1)
  | blank hs _ ih =>
    intro hopen weights line
    rw [readLines_blank hs]
    exact ih hopen weights (line + 1)

theorem table_readLines {lines : List Text.Line} : ∀ {t : FeatureTable} {weights : Array α} {line : Nat},
    (t.frozen = false → ¬ Adds α g t lines) →
      ∃ symbols, (readLines g path t weights line lines).1 = { t with symbols := symbols } := by
  induction lines with
  | nil => exact fun {t _ _} _ => ⟨t.symbols, rfl⟩
  | cons s lines ih =>
    intro t weights line hadds
    cases s with
    | none => exact ⟨t.symbols, rfl⟩
    | some s =>
      cases hs : (Text.trim s).isEmpty with
      | true =>
        rw [readLines_blank hs]
        exact ih fun hopen hrest => hadds hopen (.blank hs hrest)
      | false =>
        by_cases hreads : ∃ index d, Reads α g s index d
        · obtain ⟨index, d, hreads⟩ := hreads
          by_cases hknown : t.get? (d.number t.symbols).1 = some index
          · obtain ⟨weights', hrun⟩ := readLines_agreeing hs hreads hknown path weights line lines
            rw [hrun]
            exact ih fun hopen hrest => hadds hopen (.known hs hreads hknown hrest)
          · exact ⟨_, table_readLines_stopped hs hreads hknown
              (fun hopen hnone => hadds hopen (.new hs hreads hnone)) weights line lines⟩
        · obtain ⟨e, hline⟩ := readLine_of_not_reads hreads path t weights line
          rw [readLines_cons hs, hline]
          exact ⟨t.symbols, rfl⟩

theorem table_read_eq {lines rest : List Text.Line} {name : String} {declared : Int}
    (hheader : readHeader path lines = .ok (name, declared, rest)) (t : FeatureTable) :
    (read g path t lines : FeatureTable × Except Error (String × Option (Array α))).1 =
      (readLines g path t (#[] : Array α) 3 rest).1 := by
  rw [read, hheader]
  simp only
  split
  · rename_i hrun
    rw [hrun]
  · rename_i hrun
    rw [hrun]
    simp only
    split <;> rfl

theorem appended_read (t : FeatureTable) (lines : List Text.Line) :
    t.Appended (read g path t lines : FeatureTable × Except Error (String × Option (Array α))).1 := by
  cases hheader : readHeader path lines with
  | error e =>
    rw [read, hheader]
    exact .refl t
  | ok header =>
    rw [table_read_eq hheader]
    exact appended_readLines _ _ _ _

theorem table_read_frozen {t : FeatureTable} (hfrozen : t.frozen = true) (lines : List Text.Line) : ∃ symbols,
    (read g path t lines : FeatureTable × Except Error (String × Option (Array α))).1 =
      { t with symbols := symbols } := by
  cases hheader : readHeader path lines with
  | error e =>
    rw [read, hheader]
    exact ⟨t.symbols, rfl⟩
  | ok header =>
    rw [table_read_eq hheader]
    refine table_readLines fun hopen => ?_
    cases hopen.symm.trans hfrozen

end

end WeightFile

namespace Perceptron

variable {α : Type} [Scalar α] [Written α] {m m' : Perceptron α} {g : Grammar} {path : String}
  {lines : List Text.Line}

/-- The load gets as far as a feature that the table does not have, and may append it. -/
def Appends (m : Perceptron α) (g : Grammar) (path : String) (lines : List Text.Line) : Prop :=
  g.check m.grammarId = .ok () ∧ m.table.frozen = false ∧ ∃ name declared rest,
    WeightFile.readHeader path lines = .ok (name, declared, rest) ∧ WeightFile.Adds α g m.table rest

theorem exists_save_iff : (∃ text, m.save g = .ok text) ↔
    g.check m.grammarId = .ok () ∧ (m.isTrained = true → m.weights.size = m.table.size) := by
  cases hcheck : g.check m.grammarId with
  | error e => simp [save, hcheck, bind, Except.bind]
  | ok _ =>
    cases htrained : m.isTrained with
    | false => simp [save, hcheck, htrained, bind, Except.bind, WeightFile.write]
    | true =>
      by_cases hsize : m.weights.size = m.table.size <;>
        simp [save, hcheck, htrained, bind, Except.bind, WeightFile.write, hsize]

theorem loadWeights_eq_error {e : Error} (h : m.loadWeights g path lines = (m', .error e)) :
    (g.check m.grammarId ≠ .ok () ∧ m' = m) ∨
      (g.check m.grammarId = .ok () ∧ m' = { m with table :=
        (WeightFile.read g path m.table lines : FeatureTable × Except Error (String × Option (Array α))).1 }) := by
  rw [loadWeights] at h
  split at h
  · rename_i hcheck
    cases h
    exact .inl ⟨by rw [hcheck]; simp, rfl⟩
  · rename_i hcheck
    refine .inr ⟨hcheck, ?_⟩
    split at h
    · rename_i hread
      cases h
      rw [hread]
    · rename_i hread
      rw [hread]
      split at h
      · cases h
      · cases h
        rfl

theorem table_of_loadWeights_error {e : Error} (h : m.loadWeights g path lines = (m', .error e)) :
    m.table.Appended m'.table ∧ (m.Appends g path lines → m.table.size < m'.table.size) ∧
      (¬ m.Appends g path lines → ∃ symbols, m'.table = { m.table with symbols := symbols }) := by
  rcases loadWeights_eq_error h with ⟨hcheck, rfl⟩ | ⟨hcheck, rfl⟩
  · exact ⟨.refl _, fun hadds => absurd hadds.1 hcheck, fun _ => ⟨_, rfl⟩⟩
  · refine ⟨WeightFile.appended_read m.table lines, ?_⟩
    cases hheader : WeightFile.readHeader path lines with
    | error e' =>
      refine ⟨fun hadds => ?_, fun _ => ⟨m.table.symbols, by simp only [WeightFile.read, hheader]⟩⟩
      obtain ⟨-, -, _, _, _, hok, -⟩ := hadds
      cases hok.symm.trans hheader
    | ok header =>
      obtain ⟨name, declared, rest⟩ := header
      simp only [WeightFile.table_read_eq hheader]
      refine ⟨fun hadds => ?_, fun hnot =>
        WeightFile.table_readLines fun hopen hrest => hnot ⟨hcheck, hopen, name, declared, rest, hheader, hrest⟩⟩
      obtain ⟨-, hopen, _, _, _, hok, hrest⟩ := hadds
      cases hok.symm.trans hheader
      exact hrest.size_lt hopen _ _

/-- A load that fails changes no weight and no feature's number. Features that it had appended stay, and then a
trained model can no longer be written; otherwise the table is as before, but for the strings that have numbers. -/
theorem loadWeights_error {e : Error} (h : m.loadWeights g path lines = (m', .error e)) :
    m'.weights = m.weights ∧ m.table.Appended m'.table ∧
      (m.Appends g path lines → m.table.size < m'.table.size) ∧
      (¬ m.Appends g path lines → ∃ symbols, m'.table = { m.table with symbols := symbols }) ∧
      ∀ g', m.isTrained = true → (∃ text, m.save g' = .ok text) →
        ((∃ text, m'.save g' = .ok text) ↔ ¬ m.Appends g path lines) := by
  have hrest : m'.weights = m.weights ∧ m'.grammarId = m.grammarId := by
    rcases loadWeights_eq_error h with ⟨-, rfl⟩ | ⟨-, rfl⟩ <;> exact ⟨rfl, rfl⟩
  obtain ⟨hweights, hid⟩ := hrest
  obtain ⟨hkept, hgrown, hsame⟩ := table_of_loadWeights_error h
  refine ⟨hweights, hkept, hgrown, hsame, fun g' htrained hsave => ?_⟩
  obtain ⟨hcheck, hsize⟩ := exists_save_iff.mp hsave
  rw [exists_save_iff, isTrained, hweights, hid]
  constructor
  · rintro ⟨-, hsize'⟩ hadds
    have hlt := hgrown hadds
    have hle := hsize htrained
    rw [hsize' htrained] at hle
    omega
  · intro hnot
    obtain ⟨symbols, htable⟩ := hsame hnot
    exact ⟨hcheck, fun _ => by rw [htable, hsize htrained]; rfl⟩

end Perceptron

namespace Observed

/-! A model with one feature, and a file whose second feature is new but has a number too high. -/

def nounPhrases : FeatureTable := FeatureTable.empty.insert (.lexCat 1)

def fitted (g : Grammar) : Perceptron Double := ⟨g.id, nounPhrases, #[⟨0x3FF0000000000000⟩]⟩

def nounLine : List Char := "0\t1\tlexcat NP".toList

def clauseLine : List Char := "2\t1\tlexcat S[dcl]".toList

def misnumbered : List Text.Line := [some "perceptron".toList, some "2".toList, some nounLine, some clauseLine]

theorem get?_nounPhrases : nounPhrases.get? (.lexCat 1) = some 0 ∧ nounPhrases.get? (.lexCat 0) = none := by
  constructor
  · exact Std.HashMap.getElem?_insert_self
  · rw [FeatureTable.get?, nounPhrases, FeatureTable.insert, Std.HashMap.getElem?_insert, if_neg (by decide)]
    exact Std.HashMap.getElem?_empty

theorem reads_lexcat {g : Grammar} (hg : builder.build 0 = .ok g) :
    WeightFile.Reads Double g nounLine 0 (.plain (.lexCat 1)) ∧
      WeightFile.Reads Double g clauseLine 2 (.plain (.lexCat 0)) := by
  obtain ⟨_, _, hcontents, _⟩ := Grammar.contents_ofRules (GrammarBuilder.ofRules_of_build hg)
  have hcategories : g.categories = #[clause, np, verb] := hcontents.categories_eq
  have hread : ∀ {c : CatId} {s : List Char}, c < 3 →
      (Text.fields s).map String.ofList = ["lexcat", g.catText c] →
        Description.read g s = .ok (.plain (.lexCat c)) := by
    intro c s hc hs
    have hrefers : (Feature.lexCat c).Refers g := by
      rw [Feature.Refers, Grammar.size, hcategories]
      exact hc
    exact read_of_fields made_builder hg (t := nounPhrases) hrefers hs
  have hnp : g.catText 1 = "NP" := by
    rw [Grammar.catText, Grammar.category?, hcategories]
    rfl
  have hclause : g.catText 0 = "S[dcl]" := by
    rw [Grammar.catText, Grammar.category?, hcategories]
    rfl
  exact ⟨⟨['0'], ['1'], "lexcat NP".toList, ⟨0x3FF0000000000000⟩, rfl, rfl, rfl, hread (by decide) (hnp ▸ rfl)⟩,
    ⟨['2'], ['1'], "lexcat S[dcl]".toList, ⟨0x3FF0000000000000⟩, rfl, rfl, rfl, hread (by decide) (hclause ▸ rfl)⟩⟩

theorem appends_misnumbered {g : Grammar} (hg : builder.build 0 = .ok g) :
    (fitted g).Appends g "model.weights" misnumbered := by
  obtain ⟨hnp, hclause⟩ := reads_lexcat hg
  obtain ⟨hknown, hnew⟩ := get?_nounPhrases
  exact ⟨if_pos rfl, rfl, "perceptron", 2, _, rfl, .known rfl hnp hknown (.new rfl hclause hnew)⟩

theorem loadWeights_misnumbered {g : Grammar} (hg : builder.build 0 = .ok g) : ∃ m' e,
    (fitted g).loadWeights g "model.weights" misnumbered = (m', .error e) := by
  obtain ⟨hnp, hclause⟩ := reads_lexcat hg
  obtain ⟨hknown, hnew⟩ := get?_nounPhrases
  obtain ⟨weights', hfirst⟩ := WeightFile.readLines_agreeing rfl hnp hknown "model.weights" #[] 3
    [some clauseLine]
  obtain ⟨description, x, hsecond⟩ :=
    WeightFile.readLine_of_reads hclause "model.weights" nounPhrases weights' 4
  have hplace : WeightFile.place (nounPhrases.numbering (.plain (.lexCat 0))) 4 2 description (.lexCat 0) =
      (nounPhrases.insert (.lexCat 0), .error (.misindexed 4 (.appended description 1 2))) := by
    have hget : (nounPhrases.numbering (.plain (.lexCat 0))).get? (.lexCat 0) = none := hnew
    rw [WeightFile.place, hget]
    rfl
  have hline : WeightFile.readLine g "model.weights" nounPhrases weights' 4 clauseLine =
      (nounPhrases.insert (.lexCat 0), .error (.misindexed 4 (.appended description 1 2))) := by
    rw [hsecond]
    simp only [Description.number, hplace]
    rfl
  have hread : (WeightFile.read g "model.weights" nounPhrases misnumbered :
      FeatureTable × Except Error (String × Option (Array Double))) =
        (nounPhrases.insert (.lexCat 0), .error (.misindexed 4 (.appended description 1 2))) := by
    have hheader : WeightFile.readHeader "model.weights" misnumbered = .ok ("perceptron", 2,
      [some nounLine, some clauseLine]) := rfl
    rw [WeightFile.read, hheader]
    simp only [hfirst]
    rw [WeightFile.readLines_cons rfl, FeatureTable.numbering_plain, hline]
  have hcheck : g.check (fitted g).grammarId = .ok () := if_pos rfl
  have htable : (fitted g).table = nounPhrases := rfl
  exact ⟨_, _, by rw [Perceptron.loadWeights, hcheck, htable, hread]⟩

theorem loadWeights_error_misnumbered : ∃ g m' e, builder.build 0 = .ok g ∧
    (fitted g).loadWeights g "model.weights" misnumbered = (m', .error e) ∧
    (∃ text, (fitted g).save g = .ok text) ∧ m'.weights = (fitted g).weights ∧
    (fitted g).table.size < m'.table.size ∧ ¬ ∃ text, m'.save g = .ok text := by
  obtain ⟨g, hg, -⟩ := exists_build
  obtain ⟨m', e, hload⟩ := loadWeights_misnumbered hg
  have happends := appends_misnumbered hg
  have hsave : ∃ text, (fitted g).save g = .ok text :=
    Perceptron.exists_save_iff.mpr ⟨if_pos rfl, fun _ => rfl⟩
  obtain ⟨hweights, -, hgrown, -, hsaved⟩ := Perceptron.loadWeights_error hload
  exact ⟨g, m', e, hg, hload, hsave, hweights, hgrown happends,
    fun h => (hsaved g rfl hsave).mp h happends⟩

end Observed

end Categorial
