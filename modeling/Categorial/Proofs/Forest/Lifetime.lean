import Categorial.Proofs.Forest.Attained
import Categorial.Proofs.Forest.InRange
import Categorial.Proofs.Forest.Stored
import Categorial.Proofs.KBest.Agreement
import Categorial.Proofs.Training.Pruned
set_option autoImplicit false

/-!
The life of a forest. It is packed from a chart while its features are registered; it is written to a store and read
again; and it is renumbered when rare features are dropped from the table. What it is used for rests on an invariant
that packing establishes and that everything else keeps.
-/

namespace Categorial

namespace Forest

/-- The forest holds together, its features are numbers of a table of this size, and so are those of the gold
derivation, in ascending order. Some root is gold, and gold edges lead to nodes with gold edges. -/
structure Sound (n : Nat) (f : Forest) : Prop extends f.WellFormed where
  below : f.Below n
  goldRoot : ∃ r ∈ f.roots, r.gold = true
  ascending : Tally.Ascending f.gold
  goldEdges : ∀ node ∈ f.nodes, ∀ e ∈ node, e.gold = true →
    ∀ child ∈ e.children, isGold f.nodes.toArray child = true

/-! Packing a chart. -/

section

variable {α : Type} {f : FineChart α} {p : Perceptron α} {forest : Forest}

theorem Marks.isGold_child {gold : List StepKey} (hmarks : Marks f gold forest.nodes.toArray)
    (hforest : forest.Packs f p) : ∀ node ∈ forest.nodes, ∀ e ∈ node, e.gold = true →
    ∀ child ∈ e.children, isGold forest.nodes.toArray child = true := by
  intro node hnode packed hpacked hgold child hchild
  obtain ⟨i, hi⟩ := List.mem_iff_getElem?.mp hnode
  obtain ⟨x, hx, hof⟩ := getElem?_left_of_forall₂ hforest.nodes hi
  obtain ⟨node', hnode', hmarked⟩ := hmarks.node i x (by simpa [FineChart.item?] using hx)
  obtain rfl : node = node' := Option.some.inj (hi.symm.trans (by simpa using hnode'))
  obtain ⟨k, hk⟩ := List.mem_iff_getElem?.mp hpacked
  obtain ⟨e, he, hedge⟩ := getElem?_left_of_forall₂ hof hk
  obtain ⟨e', he', hmark⟩ := getElem?_left_of_forall₂ hmarked hk
  cases he.symm.trans he'
  rw [Marked, hgold, eq_comm, Bool.and_eq_true, List.all_eq_true] at hmark
  exact hmark.2 child (hedge.children_eq ▸ hchild)

variable [Scalar α] {c : CoarseChart α} {tags : Supertags α} {m : Model α} {retain : Retain}
  (hs : FineChart.Sound c m retain ((FineChart.cellsOf c (spansOf c.sentence.length)).map Prod.fst) f)
  (hroots : f.roots = f.findRoots m) (hc : c.Saturated tags) (hg : c.grammar.Indexed)
  {sentence : Nat} {gold : Derivation} {p' : Perceptron α}

include hs hroots hc hg

theorem sound_of_pack (ht : p.table.Consistent) (h : (pack f sentence gold).run p = (.ok (some forest), p')) :
    forest.Sound p'.table.size := by
  obtain ⟨-, -, hpacks⟩ := packs_of_pack h
  obtain ⟨hforest, hcounts⟩ := hpacks p' (.refl p')
  have ht' : p'.table.Consistent := consistent_of_pack ht h
  obtain ⟨hmarks, hgold⟩ := goldMarks_of_pack hs hroots hc hg h
  refine ⟨hforest.wellFormed hs hroots, below_of_packs ht' hforest hcounts, hgold, ?_,
    hmarks.nodes.isGold_child hforest⟩
  obtain ⟨_, _, -, -, hkeys⟩ := hcounts
  rw [hkeys]
  exact (Tally.counts_ofList _).ascending

end

/-! Dropping features. -/

section

variable {n n' : Nat} {f : Forest} {numbers : Renumbering}

theorem WellFormed.renumber (h : f.WellFormed) (numbers : Renumbering) : (f.renumber numbers).WellFormed where
  edges node hnode := by
    obtain ⟨node', hnode', rfl⟩ := List.mem_map.mp hnode
    exact mt List.map_eq_nil_iff.mp (h.edges node' hnode')
  children {i node} hnode e he := by
    obtain ⟨node', hnode', rfl⟩ := Option.map_eq_some_iff.mp (List.getElem?_map.symm.trans hnode)
    obtain ⟨e', he', rfl⟩ := List.mem_map.mp he
    exact h.children hnode' e' he'
  roots r hr := by
    obtain ⟨r', hr', rfl⟩ := List.mem_map.mp hr
    simpa [Forest.renumber] using h.roots r' hr'

theorem isGold_renumber (f : Forest) (numbers : Renumbering) (i : Nat) :
    isGold (f.renumber numbers).nodes.toArray i = isGold f.nodes.toArray i := by
  simp only [isGold, Forest.renumber, List.getElem?_toArray, List.getElem?_map]
  cases f.nodes[i]? <;> simp [Function.comp_def]

theorem Sound.renumber (h : f.Sound n) (hlt : ∀ i new : Nat, numbers[i]? = some (some new) → new < n')
    (hmono : ∀ i j new new' : Nat, newNumber? numbers i = some new → newNumber? numbers j = some new' →
      i < j → new < new') : (f.renumber numbers).Sound n' := by
  refine ⟨h.toWellFormed.renumber numbers, below_renumber hlt f, ?_, ?_, ?_⟩
  · obtain ⟨r, hr, hgold⟩ := h.goldRoot
    exact ⟨_, List.mem_map_of_mem hr, hgold⟩
  · exact h.ascending.rename fun i j a b hi hj hcmp =>
      Nat.compare_eq_lt.mpr (hmono i j a b hi hj (Nat.compare_eq_lt.mp hcmp))
  · intro node hnode e he hgold child hchild
    obtain ⟨node', hnode', rfl⟩ := List.mem_map.mp hnode
    obtain ⟨e', he', rfl⟩ := List.mem_map.mp he
    rw [isGold_renumber]
    exact h.goldEdges node' hnode' e' he' hgold child hchild

theorem Sound.prune (h : f.Sound n) {t : FeatureTable} (ht : t.Consistent) (cutoff : Nat) :
    (f.renumber (t.prune cutoff).1.toArray).Sound (t.prune cutoff).2.size :=
  h.renumber (fun _ _ hi => FeatureTable.lt_size_prune ht cutoff (by rwa [List.getElem?_toArray] at hi))
    fun _ _ _ _ => FeatureTable.newNumber?_prune_lt

theorem Sound.mono (h : f.Sound n) (hle : n ≤ n') : f.Sound n' := { h with below := h.below.mono hle }

end

end Forest

/-! Writing and reading. -/

namespace ForestStore

variable {k : Compressor} {path : String} {c : Compression} {forests : List Forest}

theorem size_of_write {file : List UInt8} (h : write k path c forests = .ok file) :
    ∀ f ∈ forests, (k.pack c (Forest.wire.write f)).length < 2 ^ 32 := by
  intro f hf
  obtain ⟨_, hrecords, -⟩ := except_bind_eq_ok.mp h
  obtain ⟨bytes, -, hrecord⟩ := mem_right_of_forall₂ (mapM_ok_iff.mp hrecords) hf
  rw [record] at hrecord
  split at hrecord
  · assumption
  · cases hrecord

theorem eq_cons_of_next (hk : k.Lossless c) {rest : List Forest} (h : ∀ f ∈ rest, Recordable k c f)
    {contents : List UInt8} {s : ForestStore} {f : Forest}
    (hnext : ForestStore.next k path ⟨c, contents, records k c rest⟩ = .ok (some (f, s))) :
    ∃ later, rest = f :: later ∧ s = ⟨c, contents, records k c later⟩ := by
  cases rest with
  | nil => cases hnext
  | cons f' later =>
    rw [records_cons, next_framed hk (h f' (List.mem_cons_self ..))] at hnext
    cases hnext
    exact ⟨later, rfl, rfl⟩

theorem records_of_moves (hk : k.Lossless c) (h : ∀ f ∈ forests, Recordable k c f) {s : ForestStore}
    (hmoves : Relation.ReflTransGen (Move k path) ⟨c, records k c forests, records k c forests⟩ s) :
    ∃ rest, rest <:+ forests ∧ s = ⟨c, records k c forests, records k c rest⟩ := by
  induction hmoves with
  | refl => exact ⟨forests, List.suffix_rfl, rfl⟩
  | tail _ hmove ih =>
    obtain ⟨rest, hrest, rfl⟩ := ih
    cases hmove with
    | next hnext =>
      obtain ⟨later, rfl, rfl⟩ := eq_cons_of_next hk (fun f hf => h f (hrest.subset hf)) hnext
      exact ⟨later, (List.suffix_cons _ later).trans hrest, rfl⟩
    | reset => exact ⟨forests, List.suffix_rfl, rfl⟩

theorem mem_of_next (hk : k.Lossless c) (hfits : ∀ f ∈ forests, f.Fits) {file : List UInt8}
    (hwrite : write k path c forests = .ok file) {s s' s'' : ForestStore} (hopen : ofBytes path file = .ok s)
    (hmoves : Relation.ReflTransGen (Move k path) s s') {f : Forest}
    (hnext : s'.next k path = .ok (some (f, s''))) : f ∈ forests := by
  have h : ∀ f ∈ forests, Recordable k c f := fun f hf => ⟨hfits f hf, size_of_write hwrite f hf⟩
  cases hwrite.symm.trans (write_eq_ok h)
  cases hopen.symm.trans (ofBytes_header c _)
  obtain ⟨rest, hrest, rfl⟩ := records_of_moves hk h hmoves
  obtain ⟨later, rfl, -⟩ := eq_cons_of_next hk (fun f hf => h f (hrest.subset hf)) hnext
  exact hrest.subset (List.mem_cons_self ..)

end ForestStore

namespace Forest

/-- The forests that come about, with sizes of the tables that they refer to: packed from a chart with all its edges,
then used with a table that has grown, read from a store in which all forests came about, or renumbered when features
were dropped from the table. -/
inductive Arises : Nat → Forest → Prop where
  | packed {α : Type} [Scalar α] {gid : Nat} {categories : Array Category} {rules : List Rule}
      {markups : List (CatId × Markup)} {g : Grammar} {s : Sentence} {tags : Supertags α} {beta : α} {maxItems : Nat}
      {c : CoarseChart α} {m : Model α} {beam : Option α} {f : FineChart α} {sentence : Nat} {gold : Derivation}
      {p p' : Perceptron α} {forest : Forest} : Grammar.ofRules gid categories rules markups = .ok g →
      CoarseChart.build g s tags beta maxItems = .ok c → FineChart.build c m .all beam = .ok f →
      p.table.Consistent → (pack f sentence gold).run p = (.ok (some forest), p') → Arises p'.table.size forest
  | grown {n n' : Nat} {f : Forest} : Arises n f → n ≤ n' → Arises n' f
  | stored {n : Nat} {forests : List Forest} {k : Compressor} {path : String} {c : Compression} {file : List UInt8}
      {s s' s'' : ForestStore} {f : Forest} : (∀ f ∈ forests, Arises n f) → (∀ f ∈ forests, f.Fits) → k.Lossless c →
      ForestStore.write k path c forests = .ok file → ForestStore.ofBytes path file = .ok s →
      Relation.ReflTransGen (ForestStore.Move k path) s s' → s'.next k path = .ok (some (f, s'')) → Arises n f
  | pruned {f : Forest} {t : FeatureTable} (cutoff : Nat) : t.Consistent → Arises t.size f →
      Arises (t.prune cutoff).2.size (f.renumber (t.prune cutoff).1.toArray)

/-- However long a forest has been kept, it holds together, and all its features are in the table. So it has a best
derivation under any weights, however many there are, and no place that is looked up for it is missing. -/
theorem sound_of_arises {n : Nat} {f : Forest} (h : f.Arises n) : f.Sound n ∧
    ∀ {α : Type} [Scalar α] (weights : Array α), ∃ p, f.best? weights = some p ∧ f.bestIn? weights = some p := by
  have hsound : f.Sound n := by
    induction h with
    | packed hg hc hf ht hpack =>
      obtain ⟨rfl, rfl, hsat, -⟩ := CoarseChart.build_ok hc
      exact sound_of_pack (FineChart.sound_build hsat hf) (congrArg FineChart.roots (FineChart.build_ok hf)) hsat
        (Grammar.indexed_ofRules hg) ht hpack
    | grown _ hle ih => exact ih.mono hle
    | stored _ hfits hk hwrite hopen hmoves hnext ih =>
      exact ih _ (ForestStore.mem_of_next hk hfits hwrite hopen hmoves hnext)
    | pruned cutoff ht _ ih => exact ih.prune ht cutoff
  obtain ⟨r, hr, -⟩ := hsound.goldRoot
  exact ⟨hsound, fun weights => hsound.exists_bestIn? (List.ne_nil_of_mem hr) weights⟩

end Forest

namespace SwappedZeros

/-- A model that knows one feature, the category of a sentence, and does not learn more. -/
def known (g : Grammar) : Perceptron Double :=
  ⟨g.id, (FeatureTable.empty.insert (.root 0)).freeze, #[]⟩

theorem consistent_known (g : Grammar) : (known g).table.Consistent :=
  have hinsert : (FeatureTable.empty.insert (.root 0)).Consistent :=
    FeatureTable.consistent_empty.insert (by simp [FeatureTable.get?, FeatureTable.empty])
  ⟨hinsert.keys, hinsert.counts, hinsert.symbols⟩

theorem get?_known (g : Grammar) (key : Feature) :
    (known g).table.get? key = if key = .root 0 then some 0 else none := by
  have hget : (known g).table.get? key = ((∅ : Std.HashMap Feature Nat).insert (.root 0) 0)[key]? := rfl
  rw [hget, Std.HashMap.getElem?_insert]
  simp [@eq_comm _ key]

def gold : Derivation := .leaf ⟨0, 0⟩ (.word 0)

def roots : List (Root Double) := [⟨0, 2, .minusZero, .minusZero⟩, ⟨1, 3, .minusZero, .plusZero⟩]

/-- The forest of the word, up to its marks. -/
def packed (goldNode goldNode' goldRoot goldRoot' : Bool) : Forest :=
  ⟨0, [[⟨[], [], goldNode⟩], [⟨[], [], goldNode'⟩]], [⟨0, [0], goldRoot⟩, ⟨1, [], goldRoot'⟩], [(0, 1)]⟩

theorem recordable_packed (goldNode goldNode' goldRoot goldRoot' : Bool) :
    ForestStore.Recordable .raw .none (packed goldNode goldNode' goldRoot goldRoot') where
  fits := (by decide : ∀ a b c d, (packed a b c d).Fits) _ _ _ _
  size := (by decide +kernel : ∀ a b c d,
    (Compressor.raw.pack .none (Forest.wire.write (packed a b c d))).length < 2 ^ 32) _ _ _ _

section

variable {p : Perceptron Double}
  (hget : ∀ key, p.table.get? key = if key = .root 0 then some 0 else none)

include hget

theorem features_lexical {ctx : Context} {id : RuleId} {site : Site} {indices : List Nat}
    (h : p.features ctx (.lexical id site) = .ok indices) : indices = [] := by
  obtain ⟨rule, -, h⟩ := except_bind_eq_ok.mp h
  obtain ⟨word, pos, hkeys⟩ : ∃ word pos : Option Nat,
      (((Expansion.lexical id site).features .known ctx rule).run p.table.symbols).1 = .lexCat site.cat ::
        (word.map (Feature.lexWord site.cat)).toList ++ (pos.map (Feature.lexPos site.cat)).toList := ⟨_, _, rfl⟩
  cases h
  rw [Perceptron.lookup, hkeys]
  cases word <;> cases pos <;> simp [hget]

theorem features_top {ctx : Context} {id : RuleId} {site : Site} {indices : List Nat}
    (h : p.features ctx (.top id site) = .ok indices) : indices = if site.cat = 0 then [0] else [] := by
  obtain ⟨rule, -, h⟩ := except_bind_eq_ok.mp h
  obtain ⟨word, hkeys⟩ : ∃ word : Option Nat, (((Expansion.top id site).features .known ctx rule).run
      p.table.symbols).1 = .root site.cat :: (word.map (Feature.rootWord site.cat)).toList := ⟨_, rfl⟩
  cases h
  rw [Perceptron.lookup, hkeys]
  by_cases hcat : site.cat = 0 <;> cases word <;> simp [hget, hcat]

theorem node_eq {f : FineChart Double} {cat : CatId} {x : Double} {node : ForestNode}
    (h : Forest.NodeOf f p (item cat x) node) : ∃ marked, node = [⟨[], [], marked⟩] := by
  obtain ⟨⟨children, features, marked⟩, _, he, hrest, rfl⟩ := List.forall₂_cons_left_iff.mp h
  obtain rfl : children = [] := he.children_eq
  obtain rfl := features_lexical hget he.features
  cases hrest
  exact ⟨marked, rfl⟩

theorem eq_packed {g : Grammar} (htop : g.topRule? 0 = some 2) {forest : Forest}
    (hforest : forest.Packs (fine g roots) p) (hcounts : forest.CountsGold (fine g roots) p gold)
    (hsentence : forest.sentence = 0) :
    ∃ goldNode goldNode' goldRoot goldRoot', forest = packed goldNode goldNode' goldRoot goldRoot' := by
  obtain ⟨sentence, nodes, tops, counts⟩ := forest
  obtain ⟨hnodes, hroots, -⟩ := hforest
  obtain ⟨steps, lists, hsteps, hlists, hcounts⟩ := hcounts
  obtain ⟨node, node', hnode, hnode', rfl⟩ := exists_pair_of_forall₂ hnodes
  obtain ⟨goldNode, rfl⟩ := node_eq hget hnode
  obtain ⟨goldNode', rfl⟩ := node_eq hget hnode'
  obtain ⟨⟨root, features, goldRoot⟩, ⟨root', features', goldRoot'⟩, hroot, hroot', rfl⟩ :=
    exists_pair_of_forall₂ hroots
  obtain rfl := features_top hget hroot.features
  obtain rfl := features_top hget hroot'.features
  obtain rfl : root = 0 := hroot.node_eq
  obtain rfl : root' = 1 := hroot'.node_eq
  have hexpansions : p.refiner.expansions ⟨g, word⟩ gold =
      .ok [.lexical 0 ⟨0, ⟨0, 1⟩, ⟨some 0, none⟩⟩, .top 2 ⟨0, ⟨0, 1⟩, ⟨some 0, none⟩⟩] := by
    simp [gold, Refiner.expansions, Refiner.walk, Perceptron.refiner, htop, bind, Except.bind, Span.word]
  cases hexpansions.symm.trans hsteps
  obtain ⟨_, _, hlexical, htop', rfl⟩ := exists_pair_of_forall₂ hlists
  obtain rfl := features_lexical hget hlexical
  obtain rfl := features_top hget htop'
  cases hsentence
  cases hcounts
  exact ⟨goldNode, goldNode', goldRoot, goldRoot', rfl⟩

end

theorem exists_packed {g : Grammar} (hg : Grammar.ofRules 7 categories rules [] = .ok g) (hid : g.id = 7)
    (hrules : g.rules = rules.toArray) : ∃ forest later,
      FineChart.build (chart g) zeros .all none = .ok (fine g roots) ∧
      (Forest.pack (fine g roots) 0 gold).run (known g) = (.ok (some forest), later) ∧
      ForestStore.Recordable .raw .none forest := by
  have hindexed := Grammar.indexed_ofRules hg
  have hc := build_eq hindexed hrules
  obtain ⟨-, -, hsat, -⟩ := CoarseChart.build_ok hc
  obtain ⟨f, hf⟩ := FineChart.exists_build (chart g) (m := zeros) hid.symm .all none
  obtain rfl : f = fine g roots := by
    have hroots := roots_eq hindexed hrules hf
    rw [eq_fine hf] at hroots
    rw [eq_fine hf]
    exact congrArg (fine g) hroots
  have hlicensed : g.Licenses (fun _ _ => True) gold := .leaf trivial (lexicalRule?_eq hindexed hrules).1
  have hderives : (fine g roots).Derives 0 gold :=
    .node (x := item 0 .minusZero) rfl (List.mem_cons_self ..) .nil
  obtain ⟨forest, later, hpack⟩ := (Forest.pack_of_licensed (FineChart.sound_build hsat hf)
    (congrArg FineChart.roots (FineChart.build_ok hf)) hsat hindexed (Grammar.terminal_ofRules hg) hlicensed 0
    (known g)).1.mpr ⟨_, List.mem_cons_self .., gold, hderives, .refl gold⟩
  obtain ⟨hgrows, -, hpacks⟩ := Forest.packs_of_pack hpack
  obtain ⟨hforest, hcounts⟩ := hpacks later (.refl later)
  obtain ⟨goldNode, goldNode', goldRoot, goldRoot', rfl⟩ := eq_packed (fun key =>
    ((hgrows.table.frozen rfl).2 key).trans (get?_known g key)) (topRule?_eq hindexed hrules).1 hforest hcounts
    (Forest.sentence_of_pack hpack)
  exact ⟨_, later, hf, hpack, recordable_packed goldNode goldNode' goldRoot goldRoot'⟩

theorem sound_of_arises_word : ∃ g forest file s s', ∃ later : Perceptron Double,
    Grammar.ofRules 7 categories rules [] = .ok g ∧
    (Forest.pack (fine g roots) 0 gold).run (known g) = (.ok (some forest), later) ∧
    ForestStore.write .raw "forests" .none [forest] = .ok file ∧ ForestStore.ofBytes "forests" file = .ok s ∧
    s.next .raw "forests" = .ok (some (forest, s')) ∧ forest.Arises later.table.size ∧
    (forest.renumber (later.table.prune 1).1.toArray).Sound (later.table.prune 1).2.size ∧
    ∀ weights : Array Double, ∃ p, (forest.renumber (later.table.prune 1).1.toArray).best? weights = some p ∧
      (forest.renumber (later.table.prune 1).1.toArray).bestIn? weights = some p := by
  obtain ⟨g, hg, hid, hrules⟩ := exists_grammar
  obtain ⟨forest, later, hf, hpack, hrecord⟩ := exists_packed hg hid hrules
  have hc := build_eq (Grammar.indexed_ofRules hg) hrules
  have hpacked : forest.Arises later.table.size := .packed hg hc hf (consistent_known g) hpack
  have hall : ∀ f ∈ [forest], ForestStore.Recordable .raw .none f := fun _ hf => List.mem_singleton.mp hf ▸ hrecord
  have hwrite : ForestStore.write .raw "forests" .none [forest] = .ok _ := ForestStore.write_eq_ok hall
  have hopen : ForestStore.ofBytes "forests" _ = .ok _ :=
    ForestStore.ofBytes_header .none (ForestStore.records .raw .none [forest])
  have hk := Compressor.lossless_none .raw
  have hnext : ForestStore.next .raw "forests" ⟨.none, _, _⟩ = .ok (some (forest, _)) :=
    ForestStore.next_framed hk hrecord (ForestStore.records .raw .none [forest]) []
  have hread : forest.Arises later.table.size :=
    .stored (fun _ hf => List.mem_singleton.mp hf ▸ hpacked) (fun f hf => (hall f hf).fits) hk hwrite hopen .refl hnext
  have hconsistent := Forest.consistent_of_pack (consistent_known g) hpack
  obtain ⟨hsound, hbest⟩ := Forest.sound_of_arises (.pruned 1 hconsistent hread)
  exact ⟨g, forest, _, _, _, later, hg, hpack, hwrite, hopen, hnext, hread, hsound, hbest⟩

end SwappedZeros

end Categorial
