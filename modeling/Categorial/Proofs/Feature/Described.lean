import Categorial.Feature.Description
import Categorial.Proofs.Feature.Numbered
import Categorial.Proofs.Grammar.Built
set_option autoImplicit false

/-!
Descriptions of features are read back. The words of a description are the kind of the feature, the name of its
rule or its category, and its strings; in a built codebook the name of a rule leads back to the rule, and
the strings get the numbers that the reading table has for them.
-/

namespace Categorial

namespace Grammar

def IsBinary (g : Grammar) (id : RuleId) : Prop := ∃ left right result, g.BinaryRule id left right result

def IsUnary (g : Grammar) (id : RuleId) : Prop := ∃ child result, g.UnaryRule id child result

end Grammar

namespace Feature

/-- The numbers of strings in a feature. -/
def symbols : Feature → List Nat
  | lexWord _ w => [w]
  | lexPos _ p => [p]
  | binWord _ w => [w]
  | binPos _ p => [p]
  | unWord _ w => [w]
  | depWord _ h s => [h, s]
  | depPos _ h s => [h, s]
  | rootWord _ w => [w]
  | _ => []

def mapSymbols (f : Nat → Nat) : Feature → Feature
  | lexWord c w => lexWord c (f w)
  | lexPos c p => lexPos c (f p)
  | binWord r w => binWord r (f w)
  | binPos r p => binPos r (f p)
  | unWord r w => unWord r (f w)
  | depWord r h s => depWord r (f h) (f s)
  | depPos r h s => depPos r (f h) (f s)
  | rootWord c w => rootWord c (f w)
  | key => key

theorem mapSymbols_mapSymbols (f f' : Nat → Nat) (key : Feature) :
    (key.mapSymbols f).mapSymbols f' = key.mapSymbols fun id => f' (f id) := by
  cases key <;> rfl

theorem mapSymbols_congr {f f' : Nat → Nat} {key : Feature} (h : ∀ id ∈ key.symbols, f id = f' id) :
    key.mapSymbols f = key.mapSymbols f' := by
  cases key <;> simp_all [mapSymbols, symbols]

theorem mapSymbols_eq_self {f : Nat → Nat} {key : Feature} (h : ∀ id ∈ key.symbols, f id = id) :
    key.mapSymbols f = key := by
  cases key <;> simp_all [mapSymbols, symbols]

/-- Categories and rules are those of the grammar, rules of the kind that the feature is about. -/
def Refers (g : Grammar) : Feature → Prop
  | lexCat c => c < g.size
  | lexWord c _ => c < g.size
  | lexPos c _ => c < g.size
  | bin r => g.IsBinary r
  | binWord r _ => g.IsBinary r
  | binPos r _ => g.IsBinary r
  | un r => g.IsUnary r
  | unWord r _ => g.IsUnary r
  | depWord r _ _ => g.IsBinary r
  | depPos r _ _ => g.IsBinary r
  | dist r apart => g.IsBinary r ∧ apart ≤ Text.idBound
  | root c => c < g.size
  | rootWord c _ => c < g.size

end Feature

/-- A string that stands as one field of a description. -/
def Word (s : String) : Prop := s.toList ≠ [] ∧ ∀ c ∈ s.toList, Text.isBlank c = false

instance : DecidablePred Word := fun s =>
  decidable_of_iff (s.toList ≠ [] ∧ (s.toList.all fun c => !Text.isBlank c) = true) (by simp [Word])

theorem Field.word {s : String} (h : Field s) : Word s :=
  ⟨h.ne_nil, fun c hc => (h.visible c hc).not_isBlank⟩

namespace Grammar

def ruleWords (g : Grammar) (id : RuleId) : List String :=
  match g.rule? id with
  | none => []
  | some r => r.combinator.name :: g.catText r.result :: match r.production with
    | .terminal => []
    | .unary c => [g.catText c]
    | .binary left right => [g.catText left, g.catText right]

theorem BinaryRule.describeRule {g : Grammar} {id : RuleId} {left right result : CatId}
    (h : g.BinaryRule id left right result) : ∃ r, g.rule? id = some r ∧ r.production = .binary left right ∧
      r.result = result ∧ g.ruleWords id = [r.combinator.name, g.catText result, g.catText left, g.catText right] ∧
        g.describeRule id = s!"{r.combinator.name} {g.catText result} {g.catText left} {g.catText right}" := by
  obtain ⟨r, hr, hproduction, rfl⟩ := h
  refine ⟨r, hr, hproduction, rfl, ?_, ?_⟩
  · simp only [ruleWords, hr, hproduction]
  · simp only [Grammar.describeRule, hr, hproduction]
    rfl

theorem UnaryRule.describeRule {g : Grammar} {id : RuleId} {child result : CatId}
    (h : g.UnaryRule id child result) : ∃ r, g.rule? id = some r ∧ r.ruleType = .unary ∧
      r.production = .unary child ∧ r.result = result ∧
        g.ruleWords id = [r.combinator.name, g.catText result, g.catText child] ∧
          g.describeRule id = s!"{r.combinator.name} {g.catText result} {g.catText child}" := by
  obtain ⟨r, hr, htype, hproduction, rfl⟩ := h
  refine ⟨r, hr, htype, hproduction, rfl, ?_, ?_⟩
  · simp only [ruleWords, hr, hproduction]
  · simp only [Grammar.describeRule, hr, hproduction]
    rfl

end Grammar

namespace FeatureTable

def words (t : FeatureTable) (g : Grammar) : Feature → List String
  | .lexCat c => ["lexcat", g.catText c]
  | .lexWord c w => ["lexword", g.catText c, t.symbolText w]
  | .lexPos c p => ["lexpos", g.catText c, t.symbolText p]
  | .bin r => "bin" :: g.ruleWords r
  | .binWord r w => "binword" :: (g.ruleWords r ++ [t.symbolText w])
  | .binPos r p => "binpos" :: (g.ruleWords r ++ [t.symbolText p])
  | .un r => "un" :: g.ruleWords r
  | .unWord r w => "unword" :: (g.ruleWords r ++ [t.symbolText w])
  | .depWord r h s => "depword" :: (g.ruleWords r ++ [t.symbolText h, t.symbolText s])
  | .depPos r h s => "deppos" :: (g.ruleWords r ++ [t.symbolText h, t.symbolText s])
  | .dist r b => "dist" :: (g.ruleWords r ++ [toString b])
  | .root c => ["root", g.catText c]
  | .rootWord c w => ["rootword", g.catText c, t.symbolText w]

variable {g : Grammar}

theorem describe_eq (t : FeatureTable) {key : Feature} (h : key.Refers g) :
    (t.describe g key).toList = [' '].intercalate ((t.words g key).map String.toList) := by
  have htext : ∀ s : String, toString s = s := fun _ => rfl
  cases key with
  | lexCat | lexWord | lexPos | root | rootWord => simp [describe, words, List.intercalate, htext]
  | bin | binWord | binPos | depWord | depPos =>
    obtain ⟨_, _, _, hrule⟩ := h
    obtain ⟨r, -, -, -, hwords, hrule⟩ := hrule.describeRule
    simp [describe, words, List.intercalate, hwords, hrule, htext]
  | dist =>
    obtain ⟨⟨_, _, _, hrule⟩, -⟩ := h
    obtain ⟨r, -, -, -, hwords, hrule⟩ := hrule.describeRule
    simp [describe, words, List.intercalate, hwords, hrule, htext]
  | un | unWord =>
    obtain ⟨_, _, hrule⟩ := h
    obtain ⟨r, -, -, -, -, hwords, hrule⟩ := hrule.describeRule
    simp [describe, words, List.intercalate, hwords, hrule, htext]

/-- The feature with its strings in place of their numbers. -/
def described (t : FeatureTable) : Feature → Description
  | .lexWord c w => .withSymbol (.lexWord c) (t.symbolText w)
  | .lexPos c p => .withSymbol (.lexPos c) (t.symbolText p)
  | .binWord r w => .withSymbol (.binWord r) (t.symbolText w)
  | .binPos r p => .withSymbol (.binPos r) (t.symbolText p)
  | .unWord r w => .withSymbol (.unWord r) (t.symbolText w)
  | .depWord r h s => .withSymbols (.depWord r) (t.symbolText h) (t.symbolText s)
  | .depPos r h s => .withSymbols (.depPos r) (t.symbolText h) (t.symbolText s)
  | .rootWord c w => .withSymbol (.rootWord c) (t.symbolText w)
  | key => .plain key

end FeatureTable

section

variable {b : GrammarBuilder} {gid : Nat} {g : Grammar}

theorem lt_of_rule? (hbuild : b.build gid = .ok g) {id : RuleId} {r : Rule} (hr : g.rule? id = some r) :
    r.result < g.size ∧ ∀ c, r.production.left? = some c ∨ r.production.right? = some c → c < g.size := by
  obtain ⟨_, _, hcontents, _⟩ := Grammar.contents_ofRules (GrammarBuilder.ofRules_of_build hbuild)
  exact hcontents.rules r (Array.mem_of_getElem? hr)

theorem read_name (c : Combinator) : (Combinator.read c.name).mapError Error.malformed = .ok c := by
  rw [Combinator.read, Combinator.ofName?_name]
  rfl

variable (hb : b.Made) (hbuild : b.build gid = .ok g)

include hb hbuild

theorem category_of_lt {c : CatId} (hc : c < g.size) : ∃ cat : Category, cat.Proper ∧ g.catText c = cat.text ∧
    g.catIds[cat.text]? = some c := by
  obtain ⟨_, _, hcontents, _⟩ := Grammar.contents_ofRules (GrammarBuilder.ofRules_of_build hbuild)
  obtain ⟨cat, hcat⟩ : ∃ cat, b.categories[c]? = some cat := by
    rw [← hcontents.categories_eq]
    exact ⟨_, Array.getElem?_eq_getElem hc⟩
  refine ⟨cat, hb.proper cat (Array.mem_of_getElem? hcat), ?_,
    Grammar.catIdOf?_ofRules (GrammarBuilder.ofRules_of_build hbuild) hcat⟩
  rw [Grammar.catText, Grammar.category?, hcontents.categories_eq, hcat]
  rfl

theorem word_catText {c : CatId} (hc : c < g.size) : Word (g.catText c) := by
  obtain ⟨cat, hproper, htext, -⟩ := category_of_lt hb hbuild hc
  rw [htext, Word, Category.text, String.toList_ofList]
  have hdenotes := Category.denotes_chars hproper
  exact ⟨hdenotes.ne_nil, fun ch hch => (hdenotes.visible ch hch).not_isBlank⟩

theorem requireCat_catText {c : CatId} (hc : c < g.size) : g.requireCat (g.catText c) = .ok c := by
  obtain ⟨cat, -, htext, hid⟩ := category_of_lt hb hbuild hc
  rw [Grammar.requireCat, Grammar.catId?, htext, hid]
  rfl

theorem readRule_binary {id : RuleId} (h : g.IsBinary id) : ∃ name result left right,
    g.ruleWords id = [name, result, left, right] ∧ (∀ word ∈ g.ruleWords id, Word word) ∧
      ∀ s, Description.readRule g s name result [left, right] = .ok id := by
  obtain ⟨left, right, _, hrule⟩ := h
  obtain ⟨r, hr, hproduction, rfl, hwords, -⟩ := hrule.describeRule
  obtain ⟨hresult, hchildren⟩ := lt_of_rule? hbuild hr
  have hleft : left < g.size := hchildren left (by simp [hproduction, Production.left?])
  have hright : right < g.size := hchildren right (by simp [hproduction, Production.right?])
  refine ⟨_, _, _, _, hwords, ?_, fun s => ?_⟩
  · rw [hwords]
    simp only [List.forall_mem_cons, List.not_mem_nil, false_implies, implies_true, and_true]
    exact ⟨(Grammar.field_name _).word, word_catText hb hbuild hresult, word_catText hb hbuild hleft,
      word_catText hb hbuild hright⟩
  · have hmapM : [g.catText left, g.catText right].mapM g.requireCat = .ok [left, right] :=
      mapM_of_forall₂ (.cons (requireCat_catText hb hbuild hleft)
        (.cons (requireCat_catText hb hbuild hright) .nil))
    exact except_bind_eq_ok.mpr ⟨_, read_name _, except_bind_eq_ok.mpr ⟨_, requireCat_catText hb hbuild hresult,
      except_bind_eq_ok.mpr ⟨_, hmapM,
        elim_error_eq_ok.mpr (GrammarBuilder.findRule?_binary hb hbuild hr hproduction)⟩⟩⟩

theorem readRule_unary {id : RuleId} (h : g.IsUnary id) : ∃ name result child,
    g.ruleWords id = [name, result, child] ∧ (∀ word ∈ g.ruleWords id, Word word) ∧
      ∀ s, Description.readRule g s name result [child] = .ok id := by
  obtain ⟨child, _, hrule⟩ := h
  obtain ⟨r, hr, htype, hproduction, rfl, hwords, -⟩ := hrule.describeRule
  obtain ⟨hresult, hchildren⟩ := lt_of_rule? hbuild hr
  have hchild : child < g.size := hchildren child (by simp [hproduction, Production.left?])
  refine ⟨_, _, _, hwords, ?_, fun s => ?_⟩
  · rw [hwords]
    simp only [List.forall_mem_cons, List.not_mem_nil, false_implies, implies_true, and_true]
    exact ⟨(Grammar.field_name _).word, word_catText hb hbuild hresult, word_catText hb hbuild hchild⟩
  · have hmapM : [g.catText child].mapM g.requireCat = .ok [child] :=
      mapM_of_forall₂ (.cons (requireCat_catText hb hbuild hchild) .nil)
    exact except_bind_eq_ok.mpr ⟨_, read_name _, except_bind_eq_ok.mpr ⟨_, requireCat_catText hb hbuild hresult,
      except_bind_eq_ok.mpr ⟨_, hmapM,
        elim_error_eq_ok.mpr (GrammarBuilder.findRule?_unary hb hbuild hr htype hproduction)⟩⟩⟩

theorem word_of_mem_words {t : FeatureTable} {key : Feature} (hkey : key.Refers g)
    (hsymbols : ∀ id ∈ key.symbols, Word (t.symbolText id)) : ∀ word ∈ t.words g key, Word word := by
  cases key with
  | lexCat | root =>
    exact List.forall_mem_cons.mpr ⟨by decide, List.forall_mem_singleton.mpr (word_catText hb hbuild hkey)⟩
  | lexWord | lexPos | rootWord =>
    exact List.forall_mem_cons.mpr ⟨by decide, List.forall_mem_cons.mpr ⟨word_catText hb hbuild hkey,
      by simpa [Feature.symbols] using hsymbols⟩⟩
  | bin =>
    obtain ⟨_, _, _, _, -, hwords, -⟩ := readRule_binary hb hbuild hkey
    exact List.forall_mem_cons.mpr ⟨by decide, hwords⟩
  | binWord | binPos | depWord | depPos =>
    obtain ⟨_, _, _, _, -, hwords, -⟩ := readRule_binary hb hbuild hkey
    exact List.forall_mem_cons.mpr ⟨by decide, List.forall_mem_append.mpr ⟨hwords,
      by simpa [Feature.symbols] using hsymbols⟩⟩
  | dist =>
    obtain ⟨_, _, _, _, -, hwords, -⟩ := readRule_binary hb hbuild hkey.1
    exact List.forall_mem_cons.mpr ⟨by decide, List.forall_mem_append.mpr ⟨hwords,
      List.forall_mem_singleton.mpr (Grammar.field_toString _).word⟩⟩
  | un =>
    obtain ⟨_, _, _, -, hwords, -⟩ := readRule_unary hb hbuild hkey
    exact List.forall_mem_cons.mpr ⟨by decide, hwords⟩
  | unWord =>
    obtain ⟨_, _, _, -, hwords, -⟩ := readRule_unary hb hbuild hkey
    exact List.forall_mem_cons.mpr ⟨by decide, List.forall_mem_append.mpr ⟨hwords,
      by simpa [Feature.symbols] using hsymbols⟩⟩

/-- A description that comes apart into the words of a feature is read as the feature with these strings. -/
theorem read_of_fields {t : FeatureTable} {key : Feature} (hkey : key.Refers g) {s : List Char}
    (hs : (Text.fields s).map String.ofList = t.words g key) : Description.read g s = .ok (t.described key) := by
  cases key with
  | lexCat | lexWord | lexPos | root | rootWord =>
    simp only [Description.read, hs, FeatureTable.words, requireCat_catText hb hbuild hkey]
    rfl
  | bin | binWord | binPos | depWord | depPos =>
    obtain ⟨_, _, _, _, hwords, -, hread⟩ := readRule_binary hb hbuild hkey
    simp only [Description.read, hs, FeatureTable.words, hwords, List.cons_append, List.nil_append, hread]
    rfl
  | dist r apart =>
    obtain ⟨hrule, hapart⟩ := hkey
    obtain ⟨_, _, _, _, hwords, -, hread⟩ := readRule_binary hb hbuild hrule
    simp only [Description.read, hs, FeatureTable.words, hwords, List.cons_append, List.nil_append, hread]
    rw [Text.toList_toString, Text.readId, Text.readNat_natDigits hapart]
    rfl
  | un | unWord =>
    obtain ⟨_, _, _, hwords, -, hread⟩ := readRule_unary hb hbuild hkey
    simp only [Description.read, hs, FeatureTable.words, hwords, List.cons_append, List.nil_append, hread]
    rfl

theorem read_describe {t : FeatureTable} {key : Feature} (hkey : key.Refers g)
    (hsymbols : ∀ id ∈ key.symbols, Word (t.symbolText id)) :
    Description.read g (t.describe g key).toList = .ok (t.described key) := by
  have hwords : ∀ piece ∈ (t.words g key).map String.toList, piece ≠ [] ∧ ∀ c ∈ piece, Text.isBlank c = false := by
    intro piece hpiece
    obtain ⟨word, hword, rfl⟩ := List.mem_map.mp hpiece
    exact word_of_mem_words hb hbuild hkey hsymbols word hword
  refine read_of_fields hb hbuild hkey ?_
  rw [t.describe_eq hkey, Text.fields_intercalate hwords, List.map_map]
  simp [Function.comp_def]

end

namespace Symbols

def elsewhere (s s' : Symbols) (id : Nat) : Nat := (s'.get? ((s.resolve? id).getD "?")).getD 0

theorem elsewhere_eq {s s' : Symbols} {id id' : Nat} {x : String} (hx : s.resolve? id = some x)
    (hid' : s'.get? x = some id') : s.elsewhere s' id = id' := by
  rw [elsewhere, hx, Option.getD_some, hid', Option.getD_some]

end Symbols

namespace Description

def symbols : Description → List String
  | plain _ => []
  | withSymbol _ x => [x]
  | withSymbols _ x y => [x, y]

/-- The feature under some numbers for the strings. -/
def make (id : String → Nat) : Description → Feature
  | plain key => key
  | withSymbol make x => make (id x)
  | withSymbols make x y => make (id x) (id y)

theorem number_spec (d : Description) (s : Symbols) : s.Extends (d.number s).2 ∧
    (s.Consistent → (d.number s).2.Consistent) ∧
      (∀ x ∈ d.symbols, ∃ id, (d.number s).2.get? x = some id) ∧
        (d.number s).1 = d.make fun x => ((d.number s).2.get? x).getD 0 := by
  cases d with
  | plain key => exact ⟨.refl s, id, by simp [symbols], rfl⟩
  | withSymbol build x =>
    obtain ⟨hextends, hget⟩ := s.intern_spec x
    refine ⟨hextends, fun h => h.intern x, ?_, ?_⟩
    · simpa [symbols] using ⟨_, hget⟩
    · simp only [number, make, hget, Option.getD_some]
  | withSymbols build x y =>
    obtain ⟨hextends, hget⟩ := s.intern_spec x
    obtain ⟨hextends', hget'⟩ := (s.intern x).2.intern_spec y
    have hfirst := hextends' x _ hget
    refine ⟨hextends.trans hextends', fun h => (h.intern x).intern y, ?_, ?_⟩
    · simp only [symbols, List.forall_mem_cons, List.not_mem_nil, false_implies, implies_true, and_true]
      exact ⟨⟨_, hfirst⟩, ⟨_, hget'⟩⟩
    · simp only [number, make, hfirst, hget', Option.getD_some]

theorem number_known {d : Description} {s : Symbols} (h : ∀ x ∈ d.symbols, ∃ id, s.get? x = some id) :
    d.number s = (d.make fun x => (s.get? x).getD 0, s) := by
  have hknown : ∀ {x id}, s.get? x = some id → s.intern x = (id, s) := by
    intro x id hx
    rw [Symbols.intern, show s.ids[x]? = some id from hx]
  cases d with
  | plain key => rfl
  | withSymbol build x =>
    obtain ⟨id, hx⟩ := h x (by simp [symbols])
    simp only [number, make, hknown hx, hx, Option.getD_some]
  | withSymbols build x y =>
    obtain ⟨i, hx⟩ := h x (by simp [symbols])
    obtain ⟨j, hy⟩ := h y (by simp [symbols])
    simp only [number, make, hknown hx, hknown hy, hx, hy, Option.getD_some]

end Description

namespace FeatureTable

theorem symbols_described (t : FeatureTable) (key : Feature) :
    (t.described key).symbols = key.symbols.map t.symbolText := by
  cases key <;> rfl

theorem make_described (t : FeatureTable) (key : Feature) (id : String → Nat) :
    (t.described key).make id = key.mapSymbols fun s => id (t.symbolText s) := by
  cases key <;> rfl

end FeatureTable

end Categorial
