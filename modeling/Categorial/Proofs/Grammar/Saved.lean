import Categorial.Proofs.Category.Spelling
import Categorial.Proofs.Grammar.Contents
import Categorial.Proofs.Grammar.Fields
set_option autoImplicit false

namespace Categorial

namespace Grammar

theorem zipIdx_map_zipIdx {β γ : Type} (xs : List β) (f : β × Nat → γ) :
    (xs.zipIdx.map f).zipIdx = xs.zipIdx.map fun p => (f p, p.2) := by
  refine List.ext_getElem? fun i => ?_
  simp only [List.getElem?_zipIdx, List.getElem?_map, Option.map_map, Nat.zero_add]
  rfl

/-- Numbers that the files can hold: ids and counts have 32 bits, slots 64. -/
structure Fits (g : Grammar) : Prop where
  categories : g.size ≤ Text.idBound + 1
  rules : g.rules.size ≤ Text.idBound + 1
  counts : ∀ r ∈ g.rules, r.count ≤ Text.idBound
  slots : ∀ entry ∈ g.markups, ∀ slot,
    entry.2.headSlot = some slot ∨ slot ∈ entry.2.silent → slot ≤ Text.sizeBound

theorem toList_toString_ne_dash (n : Nat) : (toString n).toList ≠ ['-'] := by
  rw [Text.toList_toString]
  exact Text.natDigits_ne_singleton rfl

theorem readNumber_toString {n : Nat} (h : n ≤ Text.idBound) :
    readNumber (toString n).toList = .ok n := by
  rw [readNumber, Text.toList_toString, Text.readId, Text.readNat_natDigits h]
  rfl

theorem readSize_toString {n : Nat} (h : n ≤ Text.sizeBound) :
    Text.readSize (toString n).toList = .ok n := by
  rw [Text.toList_toString]
  exact Text.readNat_natDigits h

theorem readOptional_optional {n : Option Nat} (h : ∀ k, n = some k → k ≤ Text.idBound) :
    readOptional (optional n).toList = .ok n := by
  cases n with
  | none => rfl
  | some n =>
    have hlist : (optional (some n)).toList = (toString n).toList := rfl
    rw [hlist, readOptional, if_neg (toList_toString_ne_dash n), readNumber_toString (h n rfl)]
    rfl

def ruleFields (r : Rule) : List String :=
  [toString r.id, r.ruleType.code, r.combinator.name, toString r.result,
    optional r.production.left?, optional r.production.right?, toString r.count]

theorem field_ruleFields (r : Rule) : ∀ f ∈ ruleFields r, Field f := by
  simp only [ruleFields, List.forall_mem_cons]
  exact ⟨field_toString _, field_code _, field_name _, field_toString _, field_optional _,
    field_optional _, field_toString _, by simp⟩

theorem readRuleLine_recordLine {r : Rule} (hid : r.id ≤ Text.idBound) (hresult : r.result ≤ Text.idBound)
    (hchildren : ∀ c, r.production.left? = some c ∨ r.production.right? = some c → c ≤ Text.idBound)
    (hcount : r.count ≤ Text.idBound) : readRuleLine (recordLine (ruleFields r)) = .ok r := by
  have hleft := readOptional_optional fun c hc => hchildren c (.inl hc)
  have hright := readOptional_optional fun c hc => hchildren c (.inr hc)
  have hfields := splitOn_recordLine (by simp [ruleFields]) (field_ruleFields r)
  rw [readRuleLine, hfields]
  simp only [ruleFields, List.map_cons, List.map_nil, String.ofList_toList, RuleType.ofCode?_code,
    Combinator.ofName?_name, Option.elim_some, hleft, hright, Production.ofChildren?_children,
    readNumber_toString hid, readNumber_toString hresult, readNumber_toString hcount, bind, Except.bind,
    except_pure]

def categoryFields (g : Grammar) (id : CatId) (c : Category) : List String :=
  [toString id, c.text, if g.isLexical id then "1" else "0"]

theorem field_text {c : Category} (hc : c.Proper) : Field c.text where
  ne_nil := by
    rw [Category.text, String.toList_ofList]
    exact (Category.denotes_chars hc).ne_nil
  visible := by
    rw [Category.text, String.toList_ofList]
    exact (Category.denotes_chars hc).visible

theorem field_categoryFields (g : Grammar) (id : CatId) {c : Category} (hc : c.Proper) :
    ∀ f ∈ categoryFields g id c, Field f := by
  have hflag : Field (if g.isLexical id then "1" else "0") := by
    split
    · decide
    · decide
  simp only [categoryFields, List.forall_mem_cons]
  exact ⟨field_toString _, field_text hc, hflag, by simp⟩

theorem readCategoryLine_recordLine (g : Grammar) (path : String) {id : CatId} {c : Category}
    (hc : c.Proper) (hid : id ≤ Text.sizeBound) :
    readCategoryLine path id (recordLine (categoryFields g id c)) = .ok c := by
  have hfields := splitOn_recordLine (by simp [categoryFields]) (field_categoryFields g id hc)
  rw [readCategoryLine, hfields]
  simp only [categoryFields, List.map_cons, List.map_nil, readSize_toString hid, Except.toOption,
    if_true, Category.text, String.toList_ofList, Category.read_chars hc]
  rfl

theorem readSlots_natDigits {slots : List Nat} (h : ∀ slot ∈ slots, slot ≤ Text.sizeBound) :
    readSlots (slots.map Text.natDigits) = some slots := by
  induction slots with
  | nil => rfl
  | cons slot slots ih =>
    have hrest := ih fun s hs => h s (by simp [hs])
    rw [List.map_cons, readSlots, Text.readSize, Text.readNat_natDigits (h slot (by simp)), hrest]
    rfl

theorem readHead_optional {n : Option Nat} (h : ∀ slot, n = some slot → slot ≤ Text.sizeBound) :
    (if (optional n).toList = ['-'] then some none
      else (Text.readSize (optional n).toList).toOption.map some) = some n := by
  cases n with
  | none => rfl
  | some n =>
    have hlist : (optional (some n)).toList = (toString n).toList := rfl
    rw [hlist, if_neg (toList_toString_ne_dash n), readSize_toString (h n rfl)]
    rfl

theorem readSilent_silentText {silent : List Nat} (h : ∀ slot ∈ silent, slot ≤ Text.sizeBound) :
    (if (silentText silent).toList = ['-'] then some []
      else readSlots (Text.splitOn ',' (silentText silent).toList)) = some silent := by
  cases silent with
  | nil => rfl
  | cons slot slots =>
    have htext := toList_silentText (List.cons_ne_nil slot slots)
    have hdash : (silentText (slot :: slots)).toList ≠ ['-'] := by
      obtain ⟨c, hc⟩ := List.exists_mem_of_ne_nil _ (Text.natDigits_ne_nil slot)
      have hmem : c ∈ (silentText (slot :: slots)).toList := by
        rw [htext]
        exact mem_intercalate_of_head hc
      intro heq
      rw [heq, List.mem_singleton] at hmem
      exact Text.not_mem_natDigits rfl (hmem ▸ hc)
    have hcomma : ∀ piece ∈ (slot :: slots).map Text.natDigits, ',' ∉ piece := by
      intro piece hpiece
      obtain ⟨n, _, rfl⟩ := List.mem_map.mp hpiece
      exact Text.not_mem_natDigits rfl
    rw [if_neg hdash, htext, Text.splitOn_intercalate (by simp) hcomma, readSlots_natDigits h]

theorem readMarkup_texts {m : Markup}
    (h : ∀ slot, m.headSlot = some slot ∨ slot ∈ m.silent → slot ≤ Text.sizeBound) :
    readMarkup (optional m.headSlot).toList (silentText m.silent).toList = .ok m := by
  have hhead := readHead_optional fun slot hslot => h slot (.inl hslot)
  have hsilent := readSilent_silentText fun slot hslot => h slot (.inr hslot)
  simp only [readMarkup, hhead, hsilent]

def markupFields (g : Grammar) (id : CatId) (m : Markup) : List String :=
  [g.catText id, optional m.headSlot, silentText m.silent]

/-- The codebook of proper categories whose ids go with their texts. -/
structure Readable (g : Grammar) : Prop where
  proper : ∀ c ∈ g.categories, c.Proper
  ids : ∀ id c, g.category? id = some c → g.catIds[c.text]? = some id
  nodup : (g.categories.toList.map Category.text).Nodup

/-- A category within the codebook goes by its own text. -/
theorem Readable.exists_category {g : Grammar} (hg : g.Readable) {id : CatId} (hid : id < g.size) :
    ∃ c, g.category? id = some c ∧ c.Proper ∧ g.catText id = c.text := by
  have hget : g.category? id = some g.categories[id] := Array.getElem?_eq_getElem hid
  refine ⟨g.categories[id], hget, hg.proper _ (Array.getElem_mem hid), ?_⟩
  rw [catText, hget]
  rfl

theorem Readable.field_catText {g : Grammar} (hg : g.Readable) {id : CatId} (hid : id < g.size) :
    Field (g.catText id) := by
  obtain ⟨c, _, hc, htext⟩ := hg.exists_category hid
  rw [htext]
  exact field_text hc

theorem Readable.field_markupFields {g : Grammar} (hg : g.Readable) {id : CatId} (hid : id < g.size)
    (m : Markup) : ∀ f ∈ markupFields g id m, Field f := by
  simp only [markupFields, List.forall_mem_cons]
  exact ⟨hg.field_catText hid, field_optional _, field_silentText _, by simp⟩

theorem Readable.readMarkupLine_recordLine {g : Grammar} (hg : g.Readable) {id : CatId}
    (hid : id < g.size) {m : Markup}
    (h : ∀ slot, m.headSlot = some slot ∨ slot ∈ m.silent → slot ≤ Text.sizeBound) :
    readMarkupLine (positions g.categories.toList) (recordLine (markupFields g id m)) = .ok (id, m) := by
  obtain ⟨c, hget, hc, htext⟩ := hg.exists_category hid
  have hfields := splitOn_recordLine (by simp [markupFields]) (hg.field_markupFields hid m)
  have hposition : (positions g.categories.toList)[c.text]? = some id := by
    refine getElem?_positions hg.nodup ?_
    rw [Array.getElem?_toList]
    exact hget
  have hread : Category.read c.text.toList = .ok c := by
    rw [Category.text, String.toList_ofList]
    exact Category.read_chars hc
  rw [readMarkupLine, hfields]
  simp only [markupFields, List.map_cons, List.map_nil, htext, hread, Except.toOption, Option.bind_some,
    hposition, readMarkup_texts h]
  rfl

theorem Readable.checkStartLine_recordLine {g : Grammar} (hg : g.Readable) {id : CatId}
    (hid : id < g.size) (hstart : g.isStart id = true) :
    g.checkStartLine (recordLine [g.catText id]) = .ok () := by
  obtain ⟨c, hget, hc, htext⟩ := hg.exists_category hid
  have hvisible := (field_text hc).visible
  have hline : recordLine [g.catText id] = c.text.toList := by simp [recordLine, htext]
  have htrim : Text.trim c.text.toList = c.text.toList :=
    Text.trim_of_not_isBlank fun ch hch => (hvisible ch hch).not_isBlank
  have hrequire : g.requireCat c.text = .ok id := by
    rw [requireCat, catId?, hg.ids id c hget]
    rfl
  rw [hline, checkStartLine]
  simp only [htrim, String.ofList_toList, hrequire, bind, Except.bind, hstart, if_true, except_pure]

theorem putMarkup_of_lt {marked : List (CatId × Markup)} {id : CatId} {m : Markup}
    (h : ∀ entry ∈ marked, entry.1 < id) : putMarkup id m marked = marked ++ [(id, m)] := by
  induction marked with
  | nil => rfl
  | cons entry marked ih =>
    have hlt := h entry (by simp)
    rw [putMarkup, if_neg (Nat.lt_asymm hlt), if_neg (Nat.ne_of_gt hlt), ih fun e he => h e (by simp [he])]
    rfl

/-- Markup that comes in ascending order stays as it is. -/
theorem foldl_putMarkup {marked : List (CatId × Markup)} (h : marked.Pairwise fun a b => a.1 < b.1) :
    marked.foldl (fun ms (id, m) => putMarkup id m ms) [] = marked := by
  induction marked using List.reverseRecOn with
  | nil => rfl
  | append_singleton marked last ih =>
    obtain ⟨hfirst, _, hlt⟩ := List.pairwise_append.mp h
    rw [List.foldl_append, ih hfirst]
    exact putMarkup_of_lt fun entry hentry => hlt entry hentry last (by simp)

end Grammar

end Categorial
