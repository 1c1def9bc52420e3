import Categorial.Proofs.Except
import Categorial.Proofs.Supertags
set_option autoImplicit false

namespace Categorial

namespace Supertags

section

variable {α : Type} [Scalar α]

/-- The sentences of lines that have been read, where `none` is a blank line. The lines of the sentence that is not
finished come first, the last one in front. -/
def sentencesOf (current : List (Token × List (Tag α))) :
    List (Option (Token × List (Tag α))) → List (Sentence × Supertags α)
  | [] => if current.isEmpty then [] else [sentenceOf current]
  | none :: rest =>
    if current.isEmpty then sentencesOf [] rest else sentenceOf current :: sentencesOf [] rest
  | some entry :: rest => sentencesOf (entry :: current) rest

variable {current : List (Token × List (Tag α))}

theorem sentencesOf_append (es : List (Token × List (Tag α))) (rest : List (Option (Token × List (Tag α)))) :
    sentencesOf current (es.map some ++ rest) = sentencesOf (es.reverse ++ current) rest := by
  induction es generalizing current with
  | nil => rfl
  | cons e es ih => simp [sentencesOf, ih]

theorem mem_sentencesOf {entries : List (Option (Token × List (Tag α)))} {item : Sentence × Supertags α}
    (h : item ∈ sentencesOf current entries) : ∃ es, item = sentenceOf es := by
  induction entries generalizing current with
  | nil =>
    rw [sentencesOf] at h
    split at h
    · cases h
    · exact ⟨current, List.mem_singleton.mp h⟩
  | cons entry entries ih =>
    cases entry with
    | some entry => exact ih h
    | none =>
      rw [sentencesOf] at h
      split at h
      · exact ih h
      · rcases List.mem_cons.mp h with rfl | h
        · exact ⟨current, rfl⟩
        · exact ih h

theorem flatMap_sentencesOf (entries : List (Option (Token × List (Tag α)))) :
    (sentencesOf current entries).flatMap (fun item => item.2.words) =
      (current.reverse ++ entries.filterMap id).map fun entry => sortTags entry.2 := by
  have hfinish : ∀ current : List (Token × List (Tag α)), current.isEmpty = false →
      (sentenceOf current).2.words = current.reverse.map fun entry => sortTags entry.2 := by
    intro current _
    simp [sentenceOf, ofWords, List.map_map, Function.comp_def]
  induction entries generalizing current with
  | nil =>
    rw [sentencesOf]
    split
    · rename_i hnone
      simp [List.isEmpty_iff.mp hnone]
    · rename_i hsome
      simp [hfinish current (by simpa using hsome)]
  | cons entry entries ih =>
    cases entry with
    | some entry => simp [sentencesOf, ih]
    | none =>
      rw [sentencesOf]
      split
      · rename_i hnone
        simp [ih, List.isEmpty_iff.mp hnone]
      · rename_i hsome
        simp [ih, hfinish current (by simpa using hsome)]

end

section

variable {α : Type} [Written α] {g : Grammar}

theorem readPairs_ok_line {line line' : Nat} : ∀ {pairs : List (List Char)} {tags : List (Tag α)},
    readPairs g line pairs = .ok tags → readPairs g line' pairs = .ok tags
  | [], _, h => h
  | [_], _, h => h
  | c :: score :: rest, tags, h => by
    rw [readPairs] at h ⊢
    obtain ⟨x, hx, h⟩ := except_bind_eq_ok.mp h
    obtain ⟨tags', htags', h⟩ := except_bind_eq_ok.mp h
    refine except_bind_eq_ok.mpr ⟨x, except_mapError_eq_ok.mpr (except_mapError_eq_ok.mp hx), ?_⟩
    exact except_bind_eq_ok.mpr ⟨tags', readPairs_ok_line htags', h⟩

/-- What a line is read as. -/
inductive LineReads (g : Grammar) (s : List Char) : Option (Token × List (Tag α)) → Prop
  | blank : Text.fields s = [] → LineReads g s none
  | entry {word pos : List Char} {pairs : List (List Char)} {tags : List (Tag α)} :
      Text.fields s = word :: pos :: pairs → pairs.length % 2 = 0 →
      (∀ line, readPairs g line pairs = .ok tags) →
      LineReads g s (some (⟨String.ofList word, String.ofList pos, none⟩, tags))

theorem readLine_ok_iff {line : Nat} {s : List Char} {entry : Option (Token × List (Tag α))} :
    readLine g line s = .ok entry ↔ LineReads g s entry := by
  unfold readLine
  constructor
  · intro h
    split at h
    · rename_i hfields
      cases h
      exact .blank hfields
    · rename_i word pos pairs hfields
      simp only at h
      split at h
      · cases h
      · rename_i heven
        obtain ⟨tags, htags, h⟩ := except_bind_eq_ok.mp h
        cases h
        exact .entry hfields (by simpa using heven) fun _ => readPairs_ok_line htags
    · cases h
  · rintro (hfields | ⟨hfields, heven, htags⟩)
    · rw [hfields]
    · rw [hfields]
      simp only [heven, htags line]
      rfl

end

theorem readFrom_ok_iff {α : Type} [Scalar α] [Written α] {g : Grammar} {line : Nat}
    {current : List (Token × List (Tag α))} {lines : List Text.Line}
    {items : List (Sentence × Supertags α)} : readFrom g line current lines = .ok items ↔
      ∃ entries, List.Forall₂ (fun l entry => ∃ s, l = some s ∧ LineReads g s entry) lines entries ∧
        items = sentencesOf current entries := by
  induction lines generalizing line current items with
  | nil =>
    rw [readFrom, Except.ok.injEq]
    constructor
    · rintro rfl
      exact ⟨[], .nil, rfl⟩
    · rintro ⟨_, ⟨⟩, rfl⟩
      rfl
  | cons l lines ih =>
    cases l with
    | none =>
      constructor
      · intro h
        cases h
      · rintro ⟨_, _ | ⟨⟨_, ⟨⟩, _⟩, _⟩, _⟩
    | some s =>
      rw [readFrom, except_bind_eq_ok]
      simp only [except_mapError_eq_ok, readLine_ok_iff]
      constructor
      · rintro ⟨entry, hentry, h⟩
        cases entry with
        | some entry =>
          obtain ⟨entries, hentries, rfl⟩ := ih.mp h
          exact ⟨some entry :: entries, .cons ⟨s, rfl, hentry⟩ hentries, rfl⟩
        | none =>
          obtain ⟨sentences, hrest, h⟩ := except_bind_eq_ok.mp h
          obtain ⟨entries, hentries, rfl⟩ := ih.mp hrest
          cases h
          exact ⟨none :: entries, .cons ⟨s, rfl, hentry⟩ hentries, rfl⟩
      · rintro ⟨_, _ | ⟨⟨_, ⟨⟩, hentry⟩, hentries⟩, rfl⟩
        rename_i entry entries
        refine ⟨entry, hentry, ?_⟩
        cases entry with
        | some entry => exact ih.mpr ⟨entries, hentries, rfl⟩
        | none => exact except_bind_eq_ok.mpr ⟨_, ih.mpr ⟨entries, hentries, rfl⟩, rfl⟩

end Supertags

end Categorial
