import Categorial.Proofs.Double.Order
import Categorial.Proofs.Grammar.RoundTrip
import Categorial.Proofs.Supertags.Obtained
import Categorial.Proofs.Text.Decimal
set_option autoImplicit false

/-!
The format of a tagger's output, from the side of the one who writes it: a line for each word, blank lines between the
sentences, and as many blanks as one likes wherever there may be one. What is read is what was written, except that
categories unknown to the grammar are gone and that the tags of each word are in order.
-/

namespace Categorial

namespace Supertags

/-- A category with its score, as a line has them. -/
structure TagText where
  cat : List Char
  score : List Char
  value : Double
  cat_solid : Text.Solid cat
  score_reads : Decimal.read score = .ok value

structure WordText where
  word : List Char
  pos : List Char
  tags : List TagText
  word_solid : Text.Solid word
  pos_solid : Text.Solid pos

namespace WordText

def fields (w : WordText) : List (List Char) := w.word :: w.pos :: w.tags.flatMap fun t => [t.cat, t.score]

def token (w : WordText) : Token := ⟨String.ofList w.word, String.ofList w.pos, none⟩

def known (g : Grammar) (w : WordText) : List (Tag Double) :=
  w.tags.filterMap fun t => (g.catId? (String.ofList t.cat)).map fun cat => ⟨cat, t.value⟩

end WordText

structure LineOf (pieces : List (List Char)) (line : List Char) : Prop where
  spaced : Text.Spaced pieces line
  closed : '\n' ∉ line

theorem WordText.solid_fields (w : WordText) : ∀ piece ∈ w.fields, Text.Solid piece := by
  refine List.forall_mem_cons.mpr ⟨w.word_solid, List.forall_mem_cons.mpr ⟨w.pos_solid, fun piece hpiece => ?_⟩⟩
  obtain ⟨t, _, hpiece⟩ := List.mem_flatMap.mp hpiece
  rcases List.mem_pair.mp hpiece with rfl | rfl
  · exact t.cat_solid
  · exact Decimal.solid_of_read t.score_reads

theorem WordText.lineOf_intercalate (w : WordText) : LineOf w.fields ([' '].intercalate w.fields) where
  spaced := Text.spaced_intercalate w.solid_fields
  closed h := by
    rcases mem_of_mem_intercalate h with h | ⟨piece, hpiece, h⟩
    · exact absurd h (by decide)
    · exact absurd ((w.solid_fields piece hpiece).not_isBlank '\n' h) (by decide)

/-- The lines of some sentences: any number of blank lines at both ends, and at least one between two sentences. -/
inductive Document : List (List WordText) → List (List Char) → Prop
  | done {blanks : List (List Char)} : (∀ line ∈ blanks, LineOf [] line) → Document [] blanks
  | sentence {blanks lines rest : List (List Char)} {words : List WordText} {sentences : List (List WordText)} :
      (∀ line ∈ blanks, LineOf [] line) → words ≠ [] →
      List.Forall₂ (fun w line => LineOf w.fields line) words lines →
      Document sentences rest → (∀ line ∈ rest.head?, LineOf [] line) →
      Document (words :: sentences) (blanks ++ lines ++ rest)

/-- Lines as a text, with an end after each or only between them. -/
inductive TextOf (lines : List (List Char)) : List Char → Prop
  | terminated : TextOf lines (lines.flatMap (· ++ ['\n']))
  | separated : TextOf lines (['\n'].intercalate lines)

/-- In descending order of their scores, where tags of the same score keep their order. -/
structure SortedStably (before after : List (Tag Double)) : Prop where
  perm : after.Perm before
  sorted : after.Pairwise fun a b => Scalar.compare b.score a.score ≠ .gt
  stable : ∀ x, (after.filter fun tag => tag.score = x) = before.filter fun tag => tag.score = x

theorem sortedStably_sortTags (tags : List (Tag Double)) : SortedStably tags (sortTags tags) where
  perm := sortTags_perm tags
  sorted := (sorted_sortTags tags).imp fun h => by simpa [precedes] using h
  stable x := by
    have hrefl (x : Double) : Scalar.compare x x = .eq := Double.compare_eq_eq.mpr rfl
    have hpairwise : (tags.filter fun tag => tag.score = x).Pairwise fun a b => precedes a b = true := by
      refine List.pairwise_of_forall_mem_list fun a ha b hb => ?_
      have ha := of_decide_eq_true (List.mem_filter.mp ha).2
      have hb := of_decide_eq_true (List.mem_filter.mp hb).2
      rw [precedes, ha, hb, hrefl]
      rfl
    have hsub := (sublist_sortTags hpairwise List.filter_sublist).filter fun tag => tag.score = x
    simp only [List.filter_filter, Bool.and_self] at hsub
    exact (hsub.eq_of_length ((sortTags_perm tags).filter _).length_eq.symm).symm

/-! From lines to what they are read as. -/

variable {g : Grammar}

theorem readPairs_flatMap (line : Nat) (tags : List TagText) :
    readPairs g line (tags.flatMap fun t => [t.cat, t.score]) =
      .ok (tags.filterMap fun t => (g.catId? (String.ofList t.cat)).map fun cat => ⟨cat, t.value⟩) := by
  induction tags with
  | nil => rfl
  | cons t tags ih =>
    have hread : Written.read t.score = (.ok t.value : Except Decimal.ReadError Double) := t.score_reads
    rw [List.flatMap_cons, List.cons_append, List.cons_append, List.nil_append, readPairs, hread, ih,
      List.filterMap_cons]
    cases g.catId? (String.ofList t.cat) <;> rfl

theorem lineReads_word {w : WordText} {line : List Char} (h : LineOf w.fields line) :
    LineReads g line (some (w.token, w.known g)) := by
  refine .entry h.spaced.fields_eq ?_ fun n => readPairs_flatMap n w.tags
  have hlength : (w.tags.flatMap fun t => [t.cat, t.score]).length = 2 * w.tags.length := by
    simp [List.length_flatMap, Nat.mul_comm]
  rw [hlength, Nat.mul_mod_right]

theorem lineReads_blank {line : List Char} (h : LineOf [] line) : LineReads (α := Double) g line none :=
  .blank h.spaced.fields_eq

theorem LineReads.eq_none {line : List Char} {entry : Option (Token × List (Tag Double))}
    (h : LineReads g line entry) (hblank : LineOf [] line) : entry = none := by
  cases h with
  | blank => rfl
  | entry hsome =>
    rw [hblank.spaced.fields_eq] at hsome
    cases hsome

theorem LineReads.dropReturn {line : List Char} {entry : Option (Token × List (Tag Double))}
    (h : LineReads g line entry) : LineReads g (Text.dropReturn line) entry := by
  have hfields := Text.fields_dropReturn line
  cases h with
  | blank hnone => exact .blank (hfields.trans hnone)
  | entry hsome heven htags => exact .entry (hfields.trans hsome) heven htags

theorem sentencesOf_blanks (n : Nat) (rest : List (Option (Token × List (Tag Double)))) :
    sentencesOf [] (List.replicate n none ++ rest) = sentencesOf [] rest := by
  induction n with
  | zero => rfl
  | succ n ih => rw [List.replicate_succ, List.cons_append, sentencesOf, List.isEmpty_nil, if_pos rfl, ih]

theorem sentencesOf_append_none (entries : List (Option (Token × List (Tag Double)))) :
    ∀ current, sentencesOf current (entries ++ [none]) = sentencesOf current entries := by
  induction entries with
  | nil =>
    intro current
    cases current <;> rfl
  | cons entry entries ih =>
    intro current
    cases entry <;> simp [sentencesOf, ih]

theorem sentencesOf_finish {current : List (Token × List (Tag Double))} (hne : current ≠ [])
    {entries : List (Option (Token × List (Tag Double)))} (h : ∀ entry ∈ entries.head?, entry = none) :
    sentencesOf current entries = sentenceOf current :: sentencesOf [] entries := by
  have hsome : current.isEmpty = false := by simpa using hne
  cases entries with
  | nil => rw [sentencesOf, sentencesOf, hsome]; rfl
  | cons entry rest =>
    obtain rfl := h entry rfl
    rw [sentencesOf, sentencesOf, hsome]
    rfl

def sentenceRead (g : Grammar) (words : List WordText) : Sentence × Supertags Double :=
  sentenceOf (words.map fun w => (w.token, w.known g)).reverse

theorem Document.exists_entries {sentences : List (List WordText)} {lines : List (List Char)}
    (h : Document sentences lines) : ∃ entries, List.Forall₂ (LineReads g) lines entries ∧
      sentencesOf [] entries = sentences.map (sentenceRead g) := by
  have hblank {blanks : List (List Char)} (h : ∀ line ∈ blanks, LineOf [] line) :
      List.Forall₂ (LineReads (α := Double) g) blanks (List.replicate blanks.length none) := by
    refine List.forall₂_iff_get.mpr ⟨by simp, fun i hi _ => ?_⟩
    simpa using lineReads_blank (h _ (List.get_mem blanks ⟨i, hi⟩))
  induction h with
  | @done blanks hblanks =>
    have hnothing := sentencesOf_blanks blanks.length []
    rw [List.append_nil] at hnothing
    exact ⟨_, hblank hblanks, hnothing⟩
  | @sentence blanks lines rest words sentences hblanks hne hwords _ hnext ih =>
    obtain ⟨entries, hentries, hrest⟩ := ih
    have hlines : List.Forall₂ (LineReads g) lines ((words.map fun w => (w.token, w.known g)).map some) :=
      List.forall₂_map_right_iff.mpr (List.forall₂_map_right_iff.mpr
        (hwords.imp fun _ _ h => lineReads_word h).flip)
    have hhead : ∀ entry ∈ entries.head?, entry = none := by
      cases hentries with
      | nil => nofun
      | cons hentry _ =>
        rintro _ ⟨⟩
        exact hentry.eq_none (hnext _ rfl)
    refine ⟨List.replicate blanks.length none ++ (words.map fun w => (w.token, w.known g)).map some ++ entries,
      List.rel_append (List.rel_append (hblank hblanks) hlines) hentries, ?_⟩
    rw [List.append_assoc, sentencesOf_blanks, sentencesOf_append, List.append_nil,
      sentencesOf_finish (by simpa using hne) hhead, hrest]
    rfl

theorem Document.not_mem {sentences : List (List WordText)} {lines : List (List Char)}
    (h : Document sentences lines) : ∀ line ∈ lines, '\n' ∉ line := by
  induction h with
  | done hblanks => exact fun line hline => (hblanks line hline).closed
  | sentence hblanks _ hwords _ _ ih =>
    intro line hline
    rcases List.mem_append.mp hline with hline | hline
    · rcases List.mem_append.mp hline with hline | hline
      · exact (hblanks line hline).closed
      · obtain ⟨w, _, hw⟩ := mem_left_of_forall₂ hwords hline
        exact hw.closed
    · exact ih line hline

/-- A text is read as its lines are, whether or not the last one has an end. A blank one that has none is no line. -/
theorem exists_reads {lines : List (List Char)} {entries : List (Option (Token × List (Tag Double)))}
    (h : List.Forall₂ (LineReads g) lines entries) (hclosed : ∀ line ∈ lines, '\n' ∉ line) {text : List Char}
    (htext : TextOf lines text) : ∃ entries', (entries = entries' ∨ entries = entries' ++ [none]) ∧
      List.Forall₂ (fun l entry => ∃ s, l = some s ∧ LineReads g s entry) ((Text.lines text).map some) entries' := by
  have hsome {lines : List (List Char)} {entries : List (Option (Token × List (Tag Double)))}
      (h : List.Forall₂ (LineReads g) lines entries) :
      List.Forall₂ (fun l entry => ∃ s, l = some s ∧ LineReads g s entry) (lines.map some) entries :=
    List.forall₂_map_left_iff.mpr (h.imp fun line _ h => ⟨line, rfl, h⟩)
  cases htext with
  | terminated =>
    have hlines := Text.lines_flatMap_append hclosed (List.not_mem_nil : '\n' ∉ [])
    rw [List.append_nil, if_pos rfl, List.append_nil] at hlines
    rw [hlines]
    exact ⟨entries, .inl rfl, hsome (List.forall₂_map_left_iff.mpr (h.imp fun _ _ h => h.dropReturn))⟩
  | separated =>
    induction h with
    | nil => exact ⟨[], .inl rfl, .nil⟩
    | @cons line entry lines entries hentry h ih =>
      obtain ⟨hline, hrest⟩ := List.forall_mem_cons.mp hclosed
      cases h with
      | nil =>
        have hlines := Text.lines_flatMap_append (List.forall_mem_nil fun line => '\n' ∉ line) hline
        rw [List.flatMap_nil, List.nil_append, List.map_nil, List.nil_append] at hlines
        rw [List.intercalate_singleton, hlines]
        split
        · rename_i hempty
          subst hempty
          obtain rfl := hentry.eq_none ⟨.done Text.gap_nil, by simp⟩
          exact ⟨[], .inr rfl, .nil⟩
        · exact ⟨[entry], .inl rfl, hsome (.cons hentry .nil)⟩
      | @cons next _ lines _ hnext h =>
        obtain ⟨entries', hsame, hreads⟩ := ih hrest
        rw [List.intercalate_cons_cons, List.append_assoc, List.singleton_append, Text.lines_append_cons hline]
        refine ⟨entry :: entries', ?_, .cons ⟨_, rfl, hentry.dropReturn⟩ hreads⟩
        rcases hsame with hsame | hsame
        · exact .inl (by rw [hsame])
        · exact .inr (by rw [hsame, List.cons_append])

/-- One item for each sentence in order, with the same words and tags, and for each word the candidates that the grammar
knows, sorted. -/
theorem read_document (g : Grammar) {sentences : List (List WordText)} {lines : List (List Char)}
    (hlines : Document sentences lines) {text : String} (htext : TextOf lines text.toList) :
    ∃ items : List (Sentence × Supertags Double), read g (Text.linesOfString text) = .ok items ∧
      List.Forall₂ (fun words item => item.1.tokens.toList = words.map WordText.token ∧
        item.2.length = words.length ∧
        List.Forall₂ (fun w tags => SortedStably (w.known g) tags) words item.2.words) sentences items := by
  obtain ⟨entries, hentries, hsentences⟩ := hlines.exists_entries (g := g)
  obtain ⟨entries', hsame, hreads⟩ := exists_reads hentries hlines.not_mem htext
  have hitems : sentencesOf [] entries' = sentences.map (sentenceRead g) := by
    rcases hsame with rfl | rfl
    · exact hsentences
    · rw [← sentencesOf_append_none, hsentences]
  refine ⟨_, readFrom_ok_iff.mpr ⟨entries', hreads, rfl⟩, ?_⟩
  rw [hitems]
  refine List.forall₂_map_right_iff.mpr (List.forall₂_same.mpr fun words _ => ⟨?_, ?_, ?_⟩)
  · simp [sentenceRead, sentenceOf, Function.comp_def]
  · simp [sentenceRead, sentenceOf, length, ofWords]
  · have hwords : (sentenceRead g words).2.words = words.map fun w => sortTags (w.known g) := by
      simp [sentenceRead, sentenceOf, ofWords, Function.comp_def]
    rw [hwords]
    exact List.forall₂_map_right_iff.mpr (List.forall₂_same.mpr fun w _ => sortedStably_sortTags _)

end Supertags

namespace TaggerOutput

open Supertags

def dogs : WordText where
  word := "dogs".toList
  pos := "NNS".toList
  tags := [⟨"NP".toList, "0.5".toList, ⟨0x3FE0000000000000⟩, by decide, by rfl⟩,
    ⟨"N".toList, "1".toList, Scalar.one, by decide, by rfl⟩]
  word_solid := by decide
  pos_solid := by decide

def stop : WordText := ⟨"stop".toList, "VB".toList, [], by decide, by decide⟩

def lines : List (List Char) := [[], "dogs NNS NP 0.5 N 1".toList, [], [' '], "stop VB".toList]

theorem document_lines : Document [[dogs], [stop]] lines := by
  have hblank {gap : List Char} (h : Text.Gap gap) (hclosed : '\n' ∉ gap) : LineOf [] gap := ⟨.done h, hclosed⟩
  have hempty : LineOf [] [] := hblank Text.gap_nil (by simp)
  have hspace : LineOf [] [' '] := hblank Text.gap_space (by simp)
  have hdogs : LineOf dogs.fields "dogs NNS NP 0.5 N 1".toList := dogs.lineOf_intercalate
  have hstop : LineOf stop.fields "stop VB".toList := stop.lineOf_intercalate
  have hdone : Document [] [] := .done nofun
  have hbefore : ∀ line ∈ [[]], LineOf [] line := by simp [hempty]
  have hbetween : ∀ line ∈ [[], [' ']], LineOf [] line := by simp [hempty, hspace]
  have hsecond : Document [[stop]] [[], [' '], "stop VB".toList] :=
    .sentence hbetween (by simp) (.cons hstop .nil) hdone nofun
  exact .sentence hbefore (by simp) (.cons hdogs .nil) hsecond (by simp [hempty])

theorem read_document_lines : Document [[dogs], [stop]] lines ∧
    ∃ g items, read g (Text.linesOfString "\ndogs NNS NP 0.5 N 1\n\n \nstop VB") = .ok items ∧
      items.map (fun item : Sentence × Supertags Double => item.1.tokens.toList.map Token.word) =
        [["dogs"], ["stop"]] := by
  obtain ⟨g, -⟩ := Observed.exists_build
  have htext : TextOf lines "\ndogs NNS NP 0.5 N 1\n\n \nstop VB".toList := .separated
  obtain ⟨items, hread, hitems⟩ := read_document g document_lines htext
  refine ⟨document_lines, g, items, hread, ?_⟩
  obtain ⟨first, rest, ⟨hfirst, -⟩, hrest, rfl⟩ := List.forall₂_cons_left_iff.mp hitems
  obtain ⟨second, rest, ⟨hsecond, -⟩, hnone, rfl⟩ := List.forall₂_cons_left_iff.mp hrest
  obtain rfl := List.forall₂_nil_left_iff.mp hnone
  simp only [List.map_cons, List.map_nil, hfirst, hsecond]
  rfl

end TaggerOutput

end Categorial
