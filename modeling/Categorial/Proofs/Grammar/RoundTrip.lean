import Categorial.Proofs.Grammar.Making
import Categorial.Proofs.Grammar.Saved
import Categorial.Proofs.Treebank.Lines
set_option autoImplicit false

namespace Categorial

namespace Grammar

variable {gid : Nat} {categories : Array Category} {rules : List Rule} {markups : List (CatId × Markup)}
  {g : Grammar}

theorem readable_ofRules (h : ofRules gid categories rules markups = .ok g)
    (hproper : ∀ c ∈ categories, c.Proper) : g.Readable := by
  obtain ⟨catIds, hids, hcontents, _⟩ := contents_ofRules h
  obtain ⟨_, hnodup, _⟩ := indexCategories_spec hids
  have hcategories := hcontents.categories_eq
  exact ⟨fun c hc => hproper c (hcategories ▸ hc), fun i c hc => catIdOf?_ofRules h (hcategories ▸ hc),
    hcategories ▸ hnodup⟩

theorem filledLines_categories (hg : g.Readable) :
    filledLines (Text.linesOfString g.save.categories) =
      .ok (g.categories.toList.zipIdx.map fun e => recordLine (categoryFields g e.2 e.1)) := by
  have hfile : g.save.categories =
      String.join (g.categories.toList.zipIdx.map fun e => record (categoryFields g e.2 e.1)) := rfl
  rw [hfile]
  refine filledLines_records (fun e : Category × Nat => categoryFields g e.2 e.1) fun e he => ?_
  have hc : e.1 ∈ g.categories := Array.mem_toList_iff.mp (List.fst_mem_of_mem_zipIdx he)
  exact ⟨by simp [categoryFields], field_categoryFields g e.2 (hg.proper e.1 hc)⟩

theorem filledLines_rules : filledLines (Text.linesOfString g.save.rules) =
    .ok (g.rules.toList.map fun r => recordLine (ruleFields r)) :=
  filledLines_records ruleFields fun r _ => ⟨by simp [ruleFields], field_ruleFields r⟩

theorem filledLines_start (hg : g.Readable) (hstart : ∀ c ∈ g.start, c < g.size) :
    filledLines (Text.linesOfString g.save.start) =
      .ok (g.start.map fun c => recordLine [g.catText c]) :=
  filledLines_records (fun c => [g.catText c]) fun c hc =>
    ⟨by simp, by simpa using hg.field_catText (hstart c hc)⟩

theorem filledLines_markedup (hg : g.Readable) (hmarkups : ∀ entry ∈ g.markups, entry.1 < g.size) :
    filledLines (Text.linesOfString g.save.markedup) =
      .ok (g.markups.map fun e => recordLine (markupFields g e.1 e.2)) := by
  have hfile : g.save.markedup =
      String.join (g.markups.map fun e => record (markupFields g e.1 e.2)) := rfl
  rw [hfile]
  exact filledLines_records (fun e : CatId × Markup => markupFields g e.1 e.2) fun e he =>
    ⟨by simp [markupFields], hg.field_markupFields (hmarkups e he) e.2⟩

theorem mapM_readCategoryLine (hg : g.Readable) (hfits : g.Fits) (path : String) :
    (g.categories.toList.zipIdx.map fun e => recordLine (categoryFields g e.2 e.1)).zipIdx.mapM
      (fun (line, i) => readCategoryLine path i line) = .ok g.categories.toList := by
  rw [zipIdx_map_zipIdx, List.mapM_map, mapM_eq_ok (k := Prod.fst), List.zipIdx_map_fst]
  rintro ⟨c, i⟩ hmem
  have hget : g.categories.toList[i]? = some c := List.mk_mem_zipIdx_iff_getElem?.mp hmem
  have hc : c ∈ g.categories := Array.mem_toList_iff.mp (List.mem_of_getElem? hget)
  have hlt : i < g.size := by
    have hi := (List.getElem?_eq_some_iff.mp hget).1
    rwa [Array.length_toList] at hi
  have hbound : i ≤ Text.sizeBound := by
    have hsize := hfits.categories
    have hle : Text.idBound ≤ Text.sizeBound := by decide
    omega
  exact readCategoryLine_recordLine g path (hg.proper c hc) hbound

theorem mapM_readRuleLine (hg : g.Indexed) (hfits : g.Fits)
    (hrules : ∀ r ∈ g.rules, r.result < g.size ∧
      ∀ c, r.production.left? = some c ∨ r.production.right? = some c → c < g.size) (path : String) :
    (g.rules.toList.map fun r => recordLine (ruleFields r)).zipIdx.mapM
      (fun (line, i) => (readRuleLine line).mapError fun e => Error.malformed (.ruleLine path (i + 1) e)) =
      .ok g.rules.toList := by
  rw [List.zipIdx_map, List.mapM_map, mapM_eq_ok (k := Prod.fst), List.zipIdx_map_fst]
  rintro ⟨r, i⟩ hmem
  have hget : g.rules.toList[i]? = some r := List.mk_mem_zipIdx_iff_getElem?.mp hmem
  have hr : r ∈ g.rules := Array.mem_toList_iff.mp (List.mem_of_getElem? hget)
  have hid : r.id = i := hg.id_of_rule? (by rw [rule?, ← Array.getElem?_toList, hget])
  have hi : i < g.rules.size := by
    have hlt := (List.getElem?_eq_some_iff.mp hget).1
    rwa [Array.length_toList] at hlt
  have hcat (c : CatId) (hc : c < g.size) : c ≤ Text.idBound :=
    Nat.le_of_lt_succ (Nat.lt_of_lt_of_le hc hfits.categories)
  have hrid : r.id ≤ Text.idBound := hid ▸ Nat.le_of_lt_succ (Nat.lt_of_lt_of_le hi hfits.rules)
  obtain ⟨hresult, hchildren⟩ := hrules r hr
  have hread : readRuleLine (recordLine (ruleFields r)) = .ok r :=
    readRuleLine_recordLine hrid (hcat _ hresult) (fun c hc => hcat c (hchildren c hc))
      (hfits.counts r hr)
  simp only [Function.comp_apply, Prod.map_apply, hread]
  rfl

theorem mapM_readMarkupLine (hg : g.Readable) (hfits : g.Fits)
    (hmarkups : ∀ entry ∈ g.markups, entry.1 < g.size) :
    (g.markups.map fun e => recordLine (markupFields g e.1 e.2)).mapM
      (readMarkupLine (positions g.categories.toList)) = .ok g.markups := by
  have hread : ∀ entry ∈ g.markups, readMarkupLine (positions g.categories.toList)
      (recordLine (markupFields g entry.1 entry.2)) = .ok entry := fun entry hmem =>
    hg.readMarkupLine_recordLine (hmarkups _ hmem) (hfits.slots _ hmem)
  rw [List.mapM_map]
  exact (mapM_eq_ok hread).trans (by rw [List.map_id'])

theorem forM_checkStartLine (hg : g.Readable)
    (hstart : ∀ c ∈ g.start, c < g.size ∧ g.isStart c = true) :
    (g.start.map fun c => recordLine [g.catText c]).forM g.checkStartLine = .ok () := by
  refine forM_eq_ok fun line hline => ?_
  obtain ⟨c, hc, rfl⟩ := List.mem_map.mp hline
  exact hg.checkStartLine_recordLine (hstart c hc).1 (hstart c hc).2

/-- A codebook comes back from its files, if its numbers fit into them. -/
theorem load_save_ofRules (h : ofRules gid categories rules markups = .ok g)
    (hproper : ∀ c ∈ categories, c.Proper) (hascending : markups.Pairwise fun a b => a.1 < b.1)
    (hmarkups : ∀ entry ∈ markups, entry.1 < categories.size) (hfits : g.Fits) (gid' : Nat) (dir : String) :
    load gid' dir (g.save.map fun s => some (Text.linesOfString s)) = .ok (g.renamed gid') := by
  have hg := readable_ofRules h hproper
  have hindexed := indexed_ofRules h
  obtain ⟨catIds, _, ⟨hcategories, _, hmarkupsEq, hstart, hrules⟩, hrulesEq⟩ := contents_ofRules h
  have hinRange : ∀ entry ∈ g.markups, entry.1 < g.size := by
    rw [hmarkupsEq, size, hcategories]
    exact hmarkups
  -- the files give back what the codebook was made from
  have hagain : (ofRules gid' g.categories g.rules.toList g.markups).mapError Error.malformed =
      .ok (g.renamed gid') := by
    rw [hcategories, hrulesEq, hmarkupsEq, ofRules_renamed h gid']
    rfl
  have hfold := foldl_putMarkup (hmarkupsEq ▸ hascending)
  have hcheck : (g.start.map fun c => recordLine [g.catText c]).forM (g.renamed gid').checkStartLine =
      .ok () := forM_checkStartLine hg hstart
  simp only [load, CodebookFiles.map, requireFile, optionalFile, Option.elim_some, bind, Except.bind,
    filledLines_categories hg, mapM_readCategoryLine hg hfits, filledLines_rules,
    mapM_readRuleLine hindexed hfits hrules, filledLines_markedup hg hinRange,
    mapM_readMarkupLine hg hfits hinRange, hfold, Array.toArray_toList, hagain,
    filledLines_start hg fun c hc => (hstart c hc).1, hcheck, except_pure]

end Grammar

namespace GrammarBuilder

theorem numbered_pairwise (b : GrammarBuilder) : b.numbered.Pairwise fun x y => x.1 < y.1 := by
  have hids : b.numbered.map Prod.fst = List.range b.categories.size := by
    simp [numbered, Function.comp_def, List.range_eq_range']
  have hsorted : (b.numbered.map Prod.fst).Pairwise (· < ·) := hids ▸ List.pairwise_lt_range
  exact List.pairwise_map.mp hsorted

theorem lt_of_mem_codebookMarkups {b : GrammarBuilder} {id : CatId} {m : Markup}
    (h : (id, m) ∈ b.codebookMarkups) : id < b.categories.size := by
  obtain ⟨c, _, hc, _, _⟩ := mem_codebookMarkups_iff.mp h
  exact (Array.getElem?_eq_some_iff.mp hc).1

theorem codebookMarkups_pairwise (b : GrammarBuilder) :
    b.codebookMarkups.Pairwise fun x y => x.1 < y.1 := by
  refine b.numbered_pairwise.filterMap _ fun x y hlt x' hx y' hy => ?_
  obtain ⟨_, _, rfl⟩ := Option.map_eq_some_iff.mp hx
  obtain ⟨_, _, rfl⟩ := Option.map_eq_some_iff.mp hy
  exact hlt

/-- What a builder makes, from trees as they are read from lines, comes back from its files: the same codebook with
the same indexes under a new instance number, which is then saved as the same files. -/
theorem load_save {b : GrammarBuilder} (hb : Made b) {gid : Nat} {g : Grammar}
    (h : b.build gid = .ok g) (hfits : g.Fits) (gid' : Nat) (dir : String) :
    Grammar.load gid' dir (g.save.map fun s => some (Text.linesOfString s)) =
      .ok { g with id := gid' } ∧
    Grammar.save { g with id := gid' } = g.save :=
  ⟨Grammar.load_save_ofRules (ofRules_of_build h) hb.proper b.codebookMarkups_pairwise
    (fun _ hentry => lt_of_mem_codebookMarkups hentry) hfits gid' dir, rfl⟩

end GrammarBuilder

namespace Observed

-- A codebook from one tree, with markup for the verb.

open GrammarBuilder

def clause : Category := .atom "S" (some "dcl")

def np : Category := .atom "NP" none

def verb : Category := .functor clause .backward np

def treeOver (dogs run : Token) : BankTree := .node clause 1 [.leaf np dogs, .leaf verb run]

/-- One category is not in its canonical spelling. -/
def tree : BankTree := treeOver ⟨"dogs", "NNS", some "NP"⟩ ⟨"run", "VBP", some "(S[dcl])\\NP"⟩

theorem proper_verb : verb.Proper := by
  have hclause : Category.ProperBase "S" := .inl ⟨by decide, List.all_eq_true.mp (by decide)⟩
  have hnp : Category.ProperBase "NP" := .inl ⟨by decide, List.all_eq_true.mp (by decide)⟩
  refine ⟨⟨hclause, ?_⟩, hnp, by simp⟩
  intro f hf
  cases hf
  exact ⟨by decide, List.all_eq_true.mp (by decide), by decide⟩

theorem read_line : BankTree.read tree.line = .ok tree := by
  have hdogs := BankTree.written_leaf (.ofList ['N', 'P'] (by decide)) (.ofList "NNS".toList (by decide))
    (.ofList "dogs".toList (by decide)) (c := np) rfl
  have hrun := BankTree.written_leaf (.ofList "(S[dcl])\\NP".toList (by decide)) (.ofList "VBP".toList (by decide))
    (.ofList "run".toList (by decide)) (c := verb) rfl
  exact (BankTree.written_pair proper_verb.1 (by decide) hdogs hrun).read_line

def catIds : Std.HashMap String CatId :=
  (((∅ : Std.HashMap String CatId).insert clause.text 0).insert np.text 1).insert verb.text 2

def unmarked : GrammarBuilder :=
  { GrammarBuilder.empty with
    categories := #[clause, np, verb]
    catIds := catIds
    lexical := ⟨[(1, 1), (2, 1)]⟩
    start := ⟨[(0, 1)]⟩
    seenBinary := ⟨[(⟨1, 2, .observed, 0⟩, 1)]⟩
    enumerate := false }

def builder : GrammarBuilder :=
  { unmarked with markups := unmarked.markups ++ [(verb, ⟨none, [1]⟩)] }

theorem run_observe (dogs run : Token) :
    (observe (treeOver dogs run)).run (GrammarBuilder.empty.setEnumerate false) = (.ok (), unmarked) := by
  have hnp : ((∅ : Std.HashMap String CatId).insert clause.text 0)[np.text]? = none := by
    rw [Std.HashMap.getElem?_insert, if_neg (by decide)]
    exact Std.HashMap.getElem?_empty
  have hverb : (((∅ : Std.HashMap String CatId).insert clause.text 0).insert np.text 1)[verb.text]? =
      none := by
    rw [Std.HashMap.getElem?_insert, if_neg (by decide), Std.HashMap.getElem?_insert, if_neg (by decide)]
    exact Std.HashMap.getElem?_empty
  simp only [observe, treeOver, observeNode, exceptT_run_bind]
  rw [run_intern_new Std.HashMap.getElem?_empty]
  simp only
  rw [run_intern_new hnp]
  simp only [run_modify, run_pure]
  rw [run_intern_new hverb]
  rfl

theorem rules_builder : builder.rules =
    [⟨0, .lexical, .lexical, 1, .terminal, 1⟩, ⟨1, .lexical, .lexical, 2, .terminal, 1⟩,
      ⟨2, .rightBinary, .bwdApp, 0, .binary 1 2, 1⟩, ⟨3, .top, .top, 0, .unary 0, 1⟩] := by
  rfl

theorem after_setMarkup : after (setMarkup verb.text ⟨none, [1]⟩) unmarked = builder := by
  have hread : GrammarBuilder.read verb.text = .ok verb := by
    rw [GrammarBuilder.read, Category.ofString?, Category.text, String.toList_ofList,
      Category.read_chars proper_verb]
    rfl
  have hrun : (readCategory verb.text).run unmarked = (.ok verb, unmarked) := by
    rw [← hread]
    rfl
  have hknown : unmarked.catIds[verb.text]? = some 2 := Std.HashMap.getElem?_insert_self
  have hintern := run_intern_known hknown
  simp only [after, setMarkup, exceptT_run_bind, hrun, hintern]
  rfl

theorem made_builder : Made builder := by
  have hafter : after (observe tree) (GrammarBuilder.empty.setEnumerate false) = unmarked :=
    congrArg Prod.snd (run_observe _ _)
  rw [← after_setMarkup, ← hafter]
  exact .setMarkup _ _ (.observe read_line (.setEnumerate false .empty))

theorem codebookMarkups_builder : builder.codebookMarkups = [(2, ⟨none, [1]⟩)] := by
  rfl

theorem exists_build : ∃ g, builder.build 0 = .ok g ∧ g.Fits := by
  obtain ⟨g, hg⟩ : ∃ g, Grammar.ofRules 0 builder.categories builder.rules builder.codebookMarkups =
      .ok g := by
    rw [rules_builder]
    exact Grammar.exists_ofRules 0 _ (by decide) rfl (by decide) (by decide)
  obtain ⟨_, _, ⟨hcategories, _, hmarkups, _, _⟩, hrules⟩ := Grammar.contents_ofRules hg
  rw [rules_builder] at hrules
  rw [codebookMarkups_builder] at hmarkups
  refine ⟨g, by rw [build, hg]; rfl, ?_, ?_, ?_, ?_⟩
  · rw [Grammar.size, hcategories]
    decide
  · rw [← Array.length_toList, hrules]
    decide
  · intro r hr
    rw [← Array.mem_toList_iff, hrules] at hr
    revert r
    decide
  · intro entry hentry slot hslot
    rw [hmarkups, List.mem_singleton] at hentry
    subst hentry
    simp only [reduceCtorEq, List.mem_singleton, false_or] at hslot
    subst hslot
    decide

theorem load_save_builder : Made builder ∧ ∃ g, builder.build 0 = .ok g ∧ g.Fits ∧
    Grammar.load 1 "codebook" (g.save.map fun s => some (Text.linesOfString s)) =
      .ok { g with id := 1 } ∧
    Grammar.save { g with id := 1 } = g.save := by
  obtain ⟨g, hg, hfits⟩ := exists_build
  exact ⟨made_builder, g, hg, hfits, load_save made_builder hg hfits 1 "codebook"⟩

end Observed

end Categorial
