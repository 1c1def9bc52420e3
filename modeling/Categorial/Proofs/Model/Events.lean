import Categorial.Model.Generative
import Categorial.Proofs.Feature.Numbered
import Mathlib.Data.List.Perm.Subperm
set_option autoImplicit false

/-!
Events before they are numbered. What a step makes is told by categories, markers, tags and words; a vocabulary
gives each of them its number. Tags and words that are not known have one number in common, and as long as there
are fewer of the known ones than there are ids below the markers, numbers tell apart whatever differs.
-/

namespace Categorial

/-- What the context or the outcome of an event is made of. -/
inductive Part where
  | number (n : Nat)
  | tag (x : Option String)
  | word (x : Option String)
  deriving DecidableEq

inductive Part.Kind where
  | number
  | tag
  | word
  deriving DecidableEq

def Part.kind : Part → Part.Kind
  | number _ => .number
  | tag _ => .tag
  | word _ => .word

/-- An event whose tags and words are not numbered. -/
structure PlainEvent where
  choice : Choice
  context : List Part
  outcome : Part

def PlainEvent.parts (e : PlainEvent) : List Part := e.outcome :: e.context

def extraParts (c : Conditioning) (ctx : Context) (site : Site) : List Part :=
  (if c.usesLexcat then [.number (site.refinement.lexcat.getD Marker.nothing.id)] else []) ++
    if c.usesWords then [.tag (ctx.pos? site.refinement.head), .word (ctx.word? site.refinement.head)] else []

/-- The choices that one step of a derivation makes, before they are numbered. -/
def plainEvents (c : Conditioning) (distance : Bool) (ctx : Context) (rule : Rule) :
    Expansion → List PlainEvent
  | .lexical _ site =>
    [⟨.expansion, .number site.cat :: extraParts c ctx site, .number Marker.leaf.id⟩,
      ⟨.word, [.number site.cat, .tag (ctx.pos? (some site.span.start))],
        .word (ctx.word? (some site.span.start))⟩]
  | .unary _ parent child =>
    [⟨.expansion, .number parent.cat :: extraParts c ctx parent, .number Marker.unary.id⟩,
      ⟨.head, .number parent.cat :: .number Marker.unary.id :: extraParts c ctx parent, .number child.cat⟩]
  | .binary _ parent left right =>
    let (head, sibling, kind) := match rule.headSide? with
      | some .right => (right, left, Marker.right.id)
      | _ => (left, right, Marker.left.id)
    let apart : List Part :=
      if distance then [.number (distanceBin left.refinement.head right.refinement.head)] else []
    [⟨.expansion, .number parent.cat :: extraParts c ctx parent, .number kind⟩,
      ⟨.head, .number parent.cat :: .number kind :: extraParts c ctx parent, .number head.cat⟩,
      ⟨.sibling, .number parent.cat :: .number kind :: .number head.cat :: apart ++ extraParts c ctx parent,
        .number sibling.cat⟩] ++
    if c.usesWords then
      [⟨.siblingWord, [.number sibling.cat, .tag (ctx.pos? sibling.refinement.head), .number parent.cat,
        .number head.cat, .word (ctx.word? head.refinement.head)], .word (ctx.word? sibling.refinement.head)⟩]
    else []
  | .top _ root => [⟨.top, [.number Marker.top.id], .number root.cat⟩]

namespace Vocabulary

def code (v : Vocabulary) : Part → Nat
  | .number n => n
  | .tag x => (numberIn .known v.tags x).1
  | .word x => (numberIn .known v.words x).1

def codeEvent (v : Vocabulary) (e : PlainEvent) : Event := ⟨e.choice, e.context.map v.code, v.code e.outcome⟩

structure Extends (v v' : Vocabulary) : Prop where
  words : v.words.Extends v'.words
  tags : v.tags.Extends v'.tags

theorem Extends.refl (v : Vocabulary) : v.Extends v := ⟨.refl _, .refl _⟩

theorem Extends.trans {v v' v'' : Vocabulary} (h : v.Extends v') (h' : v'.Extends v'') : v.Extends v'' :=
  ⟨h.words.trans h'.words, h.tags.trans h'.tags⟩

structure Consistent (v : Vocabulary) : Prop where
  words : v.words.Consistent
  tags : v.tags.Consistent

theorem consistent_empty : Consistent .empty := ⟨.empty, .empty⟩

/-- The part has a number of its own, or needs none from the vocabulary. -/
def Knows (v : Vocabulary) : Part → Prop
  | .tag (some x) => (v.tags.get? x).isSome = true
  | .word (some x) => (v.words.get? x).isSome = true
  | _ => True

end Vocabulary

/-- The part is a tag or a word that is there. -/
def Part.Named : Part → Prop
  | .tag x => x.isSome = true
  | .word x => x.isSome = true
  | .number _ => False

theorem Vocabulary.knows_of_not_named (v : Vocabulary) {a : Part} (h : ¬a.Named) : v.Knows a := by
  rcases a with n | (_ | x) | (_ | x)
  · trivial
  · trivial
  · exact absurd rfl h
  · trivial
  · exact absurd rfl h

theorem Vocabulary.not_knows_empty {a : Part} (ha : a.Named) : ¬Vocabulary.empty.Knows a := by
  rcases a with n | (_ | x) | (_ | x) <;>
    simp [Part.Named, Vocabulary.Knows, Vocabulary.empty, Symbols.get?, Symbols.empty] at ha ⊢

theorem numberIn_spec (s : Symbols) (x : Option String) :
    s.Extends (numberIn .grow s x).2 ∧
    (∀ s', (numberIn .grow s x).2.Extends s' → (numberIn .known s' x).1 = (numberIn .grow s x).1) ∧
    (s.Consistent → (numberIn .grow s x).2.Consistent) ∧
    ∀ y, ((numberIn .grow s x).2.get? y).isSome = true ↔ (s.get? y).isSome = true ∨ x = some y := by
  cases x with
  | none => exact ⟨.refl s, fun _ _ => rfl, fun h => h, fun y => by simp [numberIn]⟩
  | some x =>
    obtain ⟨hext, hget⟩ := s.intern_spec x
    have hnumber : numberIn .grow s (some x) = s.intern x := rfl
    rw [hnumber]
    refine ⟨hext, fun s' hs' => ?_, fun h => h.intern x, fun y => ?_⟩
    · have hknown : (numberIn .known s' (some x)).1 = (s'.get? x).getD Marker.unknown.id := rfl
      rw [hknown, hs' x _ hget, Option.getD_some]
    · by_cases hxy : x = y
      · subst hxy
        simp [hget]
      · unfold Symbols.intern
        cases s.ids[x]? with
        | some id => simp [hxy]
        | none => simp [Symbols.get?, Std.HashMap.getElem?_insert, hxy]

/-- A computation that numbers some parts. Under a known vocabulary it has a value; one that may add to the
vocabulary has the value that later vocabularies give, and then knows these parts as well. -/
structure Numbers {β : Type} (grow known : Numbering β) (value : Vocabulary → β) (names : List Part) :
    Prop where
  looksUp : ∀ v, known.run v = (value v, v)
  later : ∀ v, v.Extends (grow.run v).2 ∧ ∀ v', (grow.run v).2.Extends v' → value v' = (grow.run v).1
  consistent : ∀ v : Vocabulary, v.Consistent → (grow.run v).2.Consistent
  knows : ∀ v a, (grow.run v).2.Knows a ↔ v.Knows a ∨ a ∈ names

namespace Numbers

variable {β γ : Type}

theorem pure (b : β) : Numbers (pure b : Numbering β) (Pure.pure b) (fun _ => b) [] where
  looksUp _ := rfl
  later v := ⟨.refl v, fun _ _ => rfl⟩
  consistent _ h := h
  knows v a := by
    have hrun : ((Pure.pure b : Numbering β).run v).2 = v := rfl
    rw [hrun]
    simp

theorem bind {grow known : Numbering β} {value : Vocabulary → β} {names : List Part}
    {f f' : β → Numbering γ} {value' : β → Vocabulary → γ} {names' : List Part}
    (h : Numbers grow known value names) (hf : ∀ b, Numbers (f b) (f' b) (value' b) names') :
    Numbers (grow >>= f) (known >>= f') (fun v => value' (value v) v) (names ++ names') where
  looksUp v := by
    have hrun : (known >>= f').run v = (f' (known.run v).1).run (known.run v).2 := rfl
    rw [hrun, h.looksUp]
    exact (hf (value v)).looksUp v
  later v := by
    obtain ⟨hext, hvalue⟩ := h.later v
    obtain ⟨hext', hvalue'⟩ := (hf (grow.run v).1).later (grow.run v).2
    refine ⟨hext.trans hext', fun v' hv' => ?_⟩
    simp only [hvalue v' (hext'.trans hv')]
    exact hvalue' v' hv'
  consistent v hv := (hf _).consistent _ (h.consistent v hv)
  knows v a := by
    have hrest := (hf (grow.run v).1).knows (grow.run v).2 a
    rw [h.knows, or_assoc, ← List.mem_append] at hrest
    exact hrest

theorem congr {grow known : Numbering β} {value value' : Vocabulary → β} {names names' : List Part}
    (h : Numbers grow known value names) (hvalue : ∀ v, value v = value' v)
    (hnames : ∀ a : Part, a.Named → (a ∈ names ↔ a ∈ names')) : Numbers grow known value' names' where
  looksUp v := hvalue v ▸ h.looksUp v
  later v := ⟨(h.later v).1, fun v' hv' => (hvalue v').symm.trans ((h.later v).2 v' hv')⟩
  consistent := h.consistent
  knows v a := by
    by_cases ha : a.Named
    · rw [h.knows, hnames a ha]
    · simp [Vocabulary.knows_of_not_named _ ha]

theorem tagNumber (x : Option String) : Numbers (tagNumber .grow x) (tagNumber .known x)
    (fun v => v.code (.tag x)) [.tag x] := by
  have hrun : ∀ v, (Categorial.tagNumber .grow x).run v =
    ((numberIn .grow v.tags x).1, { v with tags := (numberIn .grow v.tags x).2 }) := fun _ => rfl
  refine ⟨fun v => ?_, fun v => ?_, fun v hv => ?_, fun v a => ?_⟩
  · cases x <;> rfl
  · obtain ⟨hext, hlater, _⟩ := numberIn_spec v.tags x
    exact ⟨⟨.refl _, hext⟩, fun v' hv' => hlater v'.tags hv'.tags⟩
  · exact ⟨hv.words, (numberIn_spec v.tags x).2.2.1 hv.tags⟩
  · rw [hrun]
    rcases a with n | (_ | y) | (_ | y)
    · simp [Vocabulary.Knows]
    · simp [Vocabulary.Knows]
    · have hknows := (numberIn_spec v.tags x).2.2.2 y
      simp only [Vocabulary.Knows, hknows, List.mem_singleton, Part.tag.injEq, eq_comm (a := x)]
    · simp [Vocabulary.Knows]
    · simp [Vocabulary.Knows]

theorem wordNumber (x : Option String) : Numbers (wordNumber .grow x) (wordNumber .known x)
    (fun v => v.code (.word x)) [.word x] := by
  have hrun : ∀ v, (Categorial.wordNumber .grow x).run v =
    ((numberIn .grow v.words x).1, { v with words := (numberIn .grow v.words x).2 }) := fun _ => rfl
  refine ⟨fun v => ?_, fun v => ?_, fun v hv => ?_, fun v a => ?_⟩
  · cases x <;> rfl
  · obtain ⟨hext, hlater, _⟩ := numberIn_spec v.words x
    exact ⟨⟨hext, .refl _⟩, fun v' hv' => hlater v'.words hv'.words⟩
  · exact ⟨(numberIn_spec v.words x).2.2.1 hv.words, hv.tags⟩
  · rw [hrun]
    rcases a with n | (_ | y) | (_ | y)
    · simp [Vocabulary.Knows]
    · simp [Vocabulary.Knows]
    · simp [Vocabulary.Knows]
    · simp [Vocabulary.Knows]
    · have hknows := (numberIn_spec v.words x).2.2.2 y
      simp only [Vocabulary.Knows, hknows, List.mem_singleton, Part.word.injEq, eq_comm (a := x)]

theorem extraContext (c : Conditioning) (ctx : Context) (site : Site) :
    Numbers (extraContext c .grow ctx site) (extraContext c .known ctx site)
      (fun v => (extraParts c ctx site).map v.code) (extraParts c ctx site) := by
  cases c with
  | baseline => exact pure _
  | lexcat =>
    refine (pure _).congr (fun v => rfl) fun a ha => ?_
    cases a <;> simp [Part.Named, extraParts, Conditioning.usesLexcat, Conditioning.usesWords] at ha ⊢
  | headword =>
    refine (bind (tagNumber _) fun _ => bind (wordNumber _) fun _ => pure _).congr (fun v => rfl) fun a ha => ?_
    cases a <;> simp [Part.Named, extraParts, Conditioning.usesLexcat, Conditioning.usesWords] at ha ⊢

theorem eventsOf (c : Conditioning) (distance : Bool) (ctx : Context) (rule : Rule) (e : Expansion) :
    Numbers (eventsOf c distance .grow ctx rule e) (eventsOf c distance .known ctx rule e)
      (fun v => (plainEvents c distance ctx rule e).map v.codeEvent)
      ((plainEvents c distance ctx rule e).flatMap PlainEvent.parts) := by
  cases e with
  | lexical _ site =>
    refine (bind (extraContext c ctx site) fun _ => bind (tagNumber _) fun _ => bind (wordNumber _) fun _ =>
      pure _).congr (fun v => rfl) fun a ha => ?_
    cases a <;> simp [Part.Named, plainEvents, PlainEvent.parts] at ha ⊢
  | unary _ parent child =>
    refine (bind (extraContext c ctx parent) fun _ => pure _).congr (fun v => rfl) fun a ha => ?_
    cases a <;> simp [Part.Named, plainEvents, PlainEvent.parts] at ha ⊢
  | binary _ parent left right =>
    -- Whichever side the head is on, the same numbers are asked for in the same order.
    rcases hside : rule.headSide? with _ | (_ | _)
    all_goals
      simp only [Categorial.eventsOf, plainEvents, hside]
      cases hwords : c.usesWords with
      | false =>
        refine (bind (extraContext c ctx parent) fun _ => pure _).congr (fun v => ?_) fun a ha => ?_
        · cases distance <;> simp [Vocabulary.codeEvent, Vocabulary.code]
        · cases a <;> cases distance <;> simp [Part.Named, PlainEvent.parts] at ha ⊢
      | true =>
        refine (bind (extraContext c ctx parent) fun _ => bind (tagNumber _) fun _ => bind (wordNumber _) fun _ =>
          bind (wordNumber _) fun _ => pure _).congr (fun v => ?_) fun a ha => ?_
        · cases distance <;> simp [Vocabulary.codeEvent, Vocabulary.code]
        · cases a <;> cases distance <;> simp [Part.Named, PlainEvent.parts] at ha ⊢
  | top _ root =>
    refine (pure _).congr (fun v => rfl) fun a ha => ?_
    cases a <;> simp [Part.Named, plainEvents, PlainEvent.parts] at ha ⊢

end Numbers

theorem source_of_mem_parts {c : Conditioning} {distance : Bool} {ctx : Context} {rule : Rule} {x : Expansion}
    {e : PlainEvent} (h : e ∈ plainEvents c distance ctx rule x) {a : Part} (ha : a ∈ e.parts)
    (hnamed : a.Named) : ∃ i, a = .tag (ctx.pos? i) ∨ a = .word (ctx.word? i) := by
  have hextra : ∀ site, a ∈ extraParts c ctx site → ∃ i, a = .tag (ctx.pos? i) ∨ a = .word (ctx.word? i) := by
    intro site ha
    cases c <;> simp [extraParts, Conditioning.usesLexcat, Conditioning.usesWords] at ha <;>
      grind [Part.Named]
  cases x with
  | lexical _ site =>
    rcases List.mem_pair.mp h with rfl | rfl <;> simp [PlainEvent.parts] at ha <;> grind [Part.Named]
  | unary _ parent child =>
    rcases List.mem_pair.mp h with rfl | rfl <;> simp [PlainEvent.parts] at ha <;> grind [Part.Named]
  | binary _ parent left right =>
    simp only [plainEvents, List.mem_append, List.mem_cons, List.not_mem_nil, or_false] at h
    rcases h with (rfl | rfl | rfl) | h
    · simp only [PlainEvent.parts, List.mem_cons] at ha
      grind [Part.Named]
    · simp only [PlainEvent.parts, List.mem_cons] at ha
      grind [Part.Named]
    · simp only [PlainEvent.parts, List.mem_cons, List.mem_append] at ha
      grind [Part.Named]
    · cases hwords : c.usesWords with
      | false => simp [hwords] at h
      | true =>
        rw [hwords, if_pos rfl, List.mem_singleton] at h
        subst h
        simp only [PlainEvent.parts, List.mem_cons, List.not_mem_nil, or_false] at ha
        grind [Part.Named]
  | top _ root =>
    obtain rfl := List.mem_singleton.mp h
    simp only [PlainEvent.parts, List.mem_cons, List.not_mem_nil, or_false] at ha
    grind [Part.Named]

/-- What the parts of a variant's addition to a context are. -/
def Conditioning.extraKinds (c : Conditioning) : List Part.Kind :=
  (if c.usesLexcat then [.number] else []) ++ if c.usesWords then [.tag, .word] else []

def Choice.contextKinds (c : Conditioning) (distance : Bool) : Choice → List Part.Kind
  | .expansion => .number :: c.extraKinds
  | .head => .number :: .number :: c.extraKinds
  | .sibling => .number :: .number :: .number :: (if distance then [.number] else []) ++ c.extraKinds
  | .siblingWord => [.number, .tag, .number, .number, .word]
  | .word => [.number, .tag]
  | .top => [.number]

def Choice.outcomeKind : Choice → Part.Kind
  | .siblingWord | .word => .word
  | _ => .number

theorem kind_extraParts (c : Conditioning) (ctx : Context) (site : Site) :
    (extraParts c ctx site).map Part.kind = c.extraKinds := by
  cases c <;> rfl

/-- The event is made of the kinds of parts that events of its choice are made of. -/
structure PlainEvent.Shaped (c : Conditioning) (distance : Bool) (e : PlainEvent) : Prop where
  context : e.context.map Part.kind = e.choice.contextKinds c distance
  outcome : e.outcome.kind = e.choice.outcomeKind

theorem shaped_of_mem_plainEvents {c : Conditioning} {distance : Bool} {ctx : Context} {rule : Rule}
    {x : Expansion} {e : PlainEvent} (h : e ∈ plainEvents c distance ctx rule x) : e.Shaped c distance := by
  have hextra := kind_extraParts c ctx
  cases x with
  | lexical _ site =>
    rcases List.mem_pair.mp h with rfl | rfl
    · exact ⟨congrArg (_ :: ·) (hextra site), rfl⟩
    · exact ⟨rfl, rfl⟩
  | unary _ parent child =>
    rcases List.mem_pair.mp h with rfl | rfl
    · exact ⟨congrArg (_ :: ·) (hextra parent), rfl⟩
    · exact ⟨congrArg (_ :: _ :: ·) (hextra parent), rfl⟩
  | binary _ parent left right =>
    simp only [plainEvents, List.mem_append, List.mem_cons, List.not_mem_nil, or_false] at h
    rcases h with (rfl | rfl | rfl) | h
    · exact ⟨congrArg (_ :: ·) (hextra parent), rfl⟩
    · exact ⟨congrArg (_ :: _ :: ·) (hextra parent), rfl⟩
    · refine ⟨?_, rfl⟩
      cases distance <;> simp [Part.kind, hextra, Choice.contextKinds]
    · cases hwords : c.usesWords with
      | false => simp [hwords] at h
      | true =>
        rw [hwords, if_pos rfl, List.mem_singleton] at h
        subst h
        exact ⟨rfl, rfl⟩
  | top _ root =>
    obtain rfl := List.mem_singleton.mp h
    exact ⟨rfl, rfl⟩

theorem Symbols.Consistent.mem_strings_iff {s : Symbols} (h : s.Consistent) (x : String) :
    x ∈ s.strings.toList ↔ (s.get? x).isSome = true := by
  rw [Array.mem_toList_iff, Array.mem_iff_getElem?, Option.isSome_iff_exists]
  exact exists_congr fun i => (h x i).symm

theorem Symbols.Consistent.size_eq {s s' : Symbols} (h : s.Consistent) (h' : s'.Consistent)
    (hsame : ∀ x, (s.get? x).isSome = true ↔ (s'.get? x).isSome = true) : s.size = s'.size := by
  have hperm : s.strings.toList.Perm s'.strings.toList :=
    (List.perm_ext_iff_of_nodup (Positions.nodup h) (Positions.nodup h')).mpr fun x => by
      rw [h.mem_strings_iff, h'.mem_strings_iff, hsame]
  simpa [size] using hperm.length_eq

theorem Symbols.Consistent.size_le {s : Symbols} (h : s.Consistent) {xs : List String}
    (hmem : ∀ x, (s.get? x).isSome = true → x ∈ xs) : s.size ≤ xs.length := by
  have hsub : s.strings.toList ⊆ xs := fun x hx => hmem x ((h.mem_strings_iff x).mp hx)
  simpa [size] using (List.subperm_of_subset (Positions.nodup h) hsub).length_le

theorem Symbols.Consistent.numberIn_eq_iff {s : Symbols} (h : s.Consistent) (hsize : s.size ≤ Marker.unknown.id)
    {x y : Option String} (hy : ∀ z, y = some z → (s.get? z).isSome = true) :
    (numberIn .known s x).1 = (numberIn .known s y).1 ↔ x = y := by
  have hlt : ∀ {z : String} {i : Nat}, s.get? z = some i → i < Marker.unknown.id :=
    fun hz => Nat.lt_of_lt_of_le (Positions.lt_size h hz) hsize
  have hmarkers : Marker.unknown.id < Marker.nothing.id := by decide
  have hsome : ∀ z, (numberIn .known s (some z)).1 = (s.get? z).getD Marker.unknown.id := fun _ => rfl
  have hnone : (numberIn .known s none).1 = Marker.nothing.id := rfl
  refine ⟨fun heq => ?_, fun heq => heq ▸ rfl⟩
  rcases y with _ | y
  · rcases x with _ | x
    · rfl
    · rw [hsome, hnone] at heq
      cases hx : s.get? x with
      | none =>
        rw [hx, Option.getD_none] at heq
        omega
      | some i =>
        have := hlt hx
        rw [hx, Option.getD_some] at heq
        omega
  · obtain ⟨j, hj⟩ := Option.isSome_iff_exists.mp (hy y rfl)
    have hjlt := hlt hj
    rw [hsome, hj, Option.getD_some] at heq
    rcases x with _ | x
    · rw [hnone] at heq
      omega
    · rw [hsome] at heq
      cases hx : s.get? x with
      | none =>
        rw [hx, Option.getD_none] at heq
        omega
      | some i =>
        obtain rfl : i = j := by simpa [hx] using heq
        exact congrArg some (Option.some.inj (((h x i).mp hx).symm.trans ((h y i).mp hj)))

namespace Vocabulary

def BelowMarkers (v : Vocabulary) : Prop := v.words.size ≤ Marker.unknown.id ∧ v.tags.size ≤ Marker.unknown.id

variable {v : Vocabulary}

theorem Consistent.code_eq_iff (h : v.Consistent) (hbelow : v.BelowMarkers) {a b : Part}
    (hkind : a.kind = b.kind) (hb : v.Knows b) : v.code a = v.code b ↔ a = b := by
  cases a <;> cases b <;> cases hkind
  · simp [code]
  · rename_i x y
    rw [code, code, h.tags.numberIn_eq_iff hbelow.2 (by rintro z rfl; exact hb), Part.tag.injEq]
  · rename_i x y
    rw [code, code, h.words.numberIn_eq_iff hbelow.1 (by rintro z rfl; exact hb), Part.word.injEq]

theorem Consistent.map_code_eq_iff (h : v.Consistent) (hbelow : v.BelowMarkers) {as bs : List Part}
    (hkind : as.map Part.kind = bs.map Part.kind) (hbs : ∀ b ∈ bs, v.Knows b) :
    as.map v.code = bs.map v.code ↔ as = bs := by
  induction as generalizing bs with
  | nil => cases bs <;> simp at hkind ⊢
  | cons a as ih =>
    cases bs with
    | nil => simp at hkind
    | cons b bs =>
      obtain ⟨hhead, htail⟩ := List.cons_eq_cons.mp hkind
      rw [List.map_cons, List.map_cons, List.cons_eq_cons, List.cons_eq_cons,
        h.code_eq_iff hbelow hhead (hbs b (by simp)), ih htail fun b' hb' => hbs b' (by simp [hb'])]

def pair (v : Vocabulary) (e : PlainEvent) : List Nat × Nat := (e.context.map v.code, v.code e.outcome)

theorem Consistent.pair_iff (h : v.Consistent) (hbelow : v.BelowMarkers) {c : Conditioning} {distance : Bool}
    {e q : PlainEvent} (he : e.Shaped c distance) (hq : q.Shaped c distance) (hchoice : e.choice = q.choice)
    (hknows : ∀ a ∈ e.parts, v.Knows a) :
    (∀ width, (v.pair e).1.take width = (v.pair q).1.take width ↔ e.context.take width = q.context.take width) ∧
      ((v.pair e).2 = (v.pair q).2 ↔ e.outcome = q.outcome) := by
  refine ⟨fun width => ?_, ?_⟩
  · have hkind : (q.context.take width).map Part.kind = (e.context.take width).map Part.kind := by
      rw [List.map_take, List.map_take, he.context, hq.context, hchoice]
    rw [pair, pair, ← List.map_take, ← List.map_take, eq_comm, eq_comm (a := e.context.take width)]
    exact h.map_code_eq_iff hbelow hkind fun a ha => hknows a (List.mem_cons_of_mem _ (List.mem_of_mem_take ha))
  · have hkind : q.outcome.kind = e.outcome.kind := by rw [he.outcome, hq.outcome, hchoice]
    rw [pair, pair, eq_comm, eq_comm (a := e.outcome)]
    exact h.code_eq_iff hbelow hkind (hknows _ List.mem_cons_self)

end Vocabulary

end Categorial
