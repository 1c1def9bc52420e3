import Categorial.Proofs.Grammar.Changes
import Categorial.Proofs.Grammar.RoundTrip
import Categorial.Proofs.Tally
set_option autoImplicit false

namespace Categorial

theorem Combinator.rank_injective : Function.Injective Combinator.rank := by
  intro c d h
  cases c <;> cases d <;> first | rfl | exact absurd h (by decide)

instance : Std.TransOrd BinaryKey :=
  inferInstanceAs (Std.TransCmp (compareLex (compareOn BinaryKey.left) (compareLex (compareOn BinaryKey.right)
    (compareLex (compareOn fun k : BinaryKey => k.combinator.rank) (compareOn BinaryKey.result)))))

instance : Std.LawfulEqOrd BinaryKey where
  eq_of_compare {a b} h := by
    have hparts : (compare a.left b.left).then ((compare a.right b.right).then
      ((compare a.combinator.rank b.combinator.rank).then (compare a.result b.result))) = .eq := h
    simp only [Ordering.then_eq_eq, Std.LawfulEqOrd.compare_eq_iff_eq] at hparts
    obtain ⟨hleft, hright, hrank, hresult⟩ := hparts
    cases a
    cases b
    cases Combinator.rank_injective hrank
    cases hleft
    cases hright
    cases hresult
    rfl

instance : Std.TransOrd UnaryKey :=
  inferInstanceAs (Std.TransCmp (compareLex (compareOn UnaryKey.child)
    (compareLex (compareOn fun k : UnaryKey => k.combinator.rank) (compareOn UnaryKey.result))))

instance : Std.LawfulEqOrd UnaryKey where
  eq_of_compare {a b} h := by
    have hparts : (compare a.child b.child).then
      ((compare a.combinator.rank b.combinator.rank).then (compare a.result b.result)) = .eq := h
    simp only [Ordering.then_eq_eq, Std.LawfulEqOrd.compare_eq_iff_eq] at hparts
    obtain ⟨hchild, hrank, hresult⟩ := hparts
    cases a
    cases b
    cases Combinator.rank_injective hrank
    cases hchild
    cases hresult
    rfl

/-- The first part in which two keys differ decides which comes first; results play no part if it is no later
than the combinator. -/
theorem BinaryKey.compare_eq_lt {a b : BinaryKey}
    (h : a.left < b.left ∨ a.left = b.left ∧ (a.right < b.right ∨
      a.right = b.right ∧ a.combinator.rank < b.combinator.rank)) : compare a b = .lt := by
  have hparts : compare a b = (compare a.left b.left).then ((compare a.right b.right).then
    ((compare a.combinator.rank b.combinator.rank).then (compare a.result b.result))) := rfl
  rw [hparts]
  rcases h with hleft | ⟨hleft, hright | ⟨hright, hrank⟩⟩
  · rw [Nat.compare_eq_lt.mpr hleft, Ordering.lt_then]
  · rw [Nat.compare_eq_eq.mpr hleft, Nat.compare_eq_lt.mpr hright, Ordering.eq_then, Ordering.lt_then]
  · rw [Nat.compare_eq_eq.mpr hleft, Nat.compare_eq_eq.mpr hright, Nat.compare_eq_lt.mpr hrank,
      Ordering.eq_then, Ordering.eq_then, Ordering.lt_then]

namespace GrammarBuilder

variable {b : GrammarBuilder} {gid : Nat} {g : Grammar}

theorem exists_rule {make : RuleId → Rule} (h : b.build gid = .ok g) (hmake : make ∈ b.unnumbered) :
    ∃ id, g.rule? id = some (make id) := by
  obtain ⟨_, _, _, hrules⟩ := Grammar.contents_ofRules (ofRules_of_build h)
  obtain ⟨i, hi⟩ := List.mem_iff_getElem?.mp hmake
  refine ⟨i, ?_⟩
  rw [Grammar.rule?, ← Array.getElem?_toList, hrules, rules, List.getElem?_map, List.getElem?_zipIdx, hi]
  simp

theorem Made.combinators_sublist (hb : Made b) : b.combinators.Sublist Combinator.all := by
  refine hb.induction (P := fun b => b.combinators.Sublist Combinator.all) (by decide) fun hchange h => ?_
  cases hchange with
  | combinators hcs => exact hcs.elim id fun hcs => hcs.trans h
  | intern c =>
    simp only [intern]
    split <;> exact h
  | _ => exact h

theorem Made.isUnary (hb : Made b) :
    (∀ key ∈ b.declared, key.combinator.isUnary = true) ∧
      ∀ e ∈ b.seenUnary.entries, e.1.combinator.isUnary = true := by
  refine hb.induction (P := fun b => (∀ key ∈ b.declared, key.combinator.isUnary = true) ∧
      ∀ e ∈ b.seenUnary.entries, e.1.combinator.isUnary = true) (by simp [GrammarBuilder.empty, Tally.empty])
    fun hchange h => ?_
  cases hchange with
  | declared hkeys =>
    exact ⟨fun key hkey => (List.mem_append.mp hkey).elim (h.1 key) (hkeys key), h.2⟩
  | seenUnary child id c =>
    refine ⟨h.1, fun e he => ?_⟩
    rcases Tally.mem_alterEntries he with ⟨hkey, -⟩ | hold
    · rw [hkey]
      simp only [unaryCombinator]
      split <;> split <;> rfl
    · exact h.2 e hold
  | intern c =>
    simp only [intern]
    split <;> exact h
  | _ => exact h

theorem mem_schemaKeys {left right : CatId × Category} {key : BinaryKey} (h : key ∈ b.schemaKeys left right) :
    key.left = left.1 ∧ key.right = right.1 := by
  obtain ⟨c, -, hkey⟩ := List.mem_filterMap.mp h
  obtain ⟨_, -, rfl⟩ := Option.map_eq_some_iff.mp hkey
  exact ⟨rfl, rfl⟩

theorem ascending_enumerated (hb : Made b) : Tally.Ascending (b.enumerated.map fun key => (key, 0)) := by
  have hranks : b.combinators.Pairwise fun c d => c.rank < d.rank :=
    List.Pairwise.sublist hb.combinators_sublist (by decide)
  refine List.pairwise_map.mpr ?_
  rw [enumerated]
  split
  · refine List.pairwise_flatMap.mpr ⟨fun left _ => List.pairwise_flatMap.mpr ⟨fun right _ => ?_, ?_⟩, ?_⟩
    · refine hranks.filterMap _ fun c d hlt key hkey key' hkey' => ?_
      obtain ⟨_, -, rfl⟩ := Option.map_eq_some_iff.mp hkey
      obtain ⟨_, -, rfl⟩ := Option.map_eq_some_iff.mp hkey'
      exact BinaryKey.compare_eq_lt (.inr ⟨rfl, .inr ⟨rfl, hlt⟩⟩)
    · refine b.numbered_pairwise.imp fun {right right'} hlt key hkey key' hkey' => ?_
      obtain ⟨hleft, hright⟩ := mem_schemaKeys hkey
      obtain ⟨hleft', hright'⟩ := mem_schemaKeys hkey'
      refine BinaryKey.compare_eq_lt (.inr ⟨hleft.trans hleft'.symm, .inl ?_⟩)
      rwa [hright, hright']
    · refine b.numbered_pairwise.imp fun {left left'} hlt key hkey key' hkey' => ?_
      obtain ⟨_, -, hkey⟩ := List.mem_flatMap.mp hkey
      obtain ⟨_, -, hkey'⟩ := List.mem_flatMap.mp hkey'
      refine BinaryKey.compare_eq_lt (.inl ?_)
      rwa [(mem_schemaKeys hkey).1, (mem_schemaKeys hkey').1]
  · exact .nil

/-- A step gets another schema, but its children and its result stay. -/
theorem explain_children (b : GrammarBuilder) (key : BinaryKey) :
    (b.explain key).left = key.left ∧ (b.explain key).right = key.right ∧
      (b.explain key).result = key.result := by
  unfold explain
  split <;> exact ⟨rfl, rfl, rfl⟩

theorem nodup_binaryRules (hb : Made b) : (b.binaryRules.entries.map Prod.fst).Nodup :=
  (Tally.ascending_foldl_alter (fun e : BinaryKey × Nat => b.explain e.1) (fun e o => (o.getD 0 + e.2) % UInt32.size)
    b.seenBinary.toList (ascending_enumerated hb)).nodup

theorem nodup_unaryRules (b : GrammarBuilder) : (b.unaryRules.entries.map Prod.fst).Nodup :=
  (Tally.ascending_foldl_alter (fun e : UnaryKey × Nat => e.1) (fun e o => (o.getD 0 + e.2) % UInt32.size)
    b.seenUnary.toList (Tally.ascending_foldl_alter id (fun _ _ => 0) b.declared (t := .empty) .nil)).nodup

theorem key_of_mem_binaryRules {b : GrammarBuilder} {e : BinaryKey × Nat} (h : e ∈ b.binaryRules.entries) :
    e.1 ∈ b.enumerated ∨ ∃ e' ∈ b.seenBinary.entries, b.explain e'.1 = e.1 := by
  refine (Tally.key_of_mem_foldl_alter (fun e : BinaryKey × Nat => b.explain e.1)
    (fun e o => (o.getD 0 + e.2) % UInt32.size) b.seenBinary.toList h).imp_left ?_
  rintro ⟨e', he', hkey⟩
  obtain ⟨key, hmem, rfl⟩ := List.mem_map.mp he'
  exact hkey ▸ hmem

theorem key_of_mem_unaryRules {b : GrammarBuilder} {e : UnaryKey × Nat} (h : e ∈ b.unaryRules.entries) :
    e.1 ∈ b.declared ∨ ∃ e' ∈ b.seenUnary.entries, e'.1 = e.1 := by
  refine (Tally.key_of_mem_foldl_alter (fun e : UnaryKey × Nat => e.1)
    (fun e o => (o.getD 0 + e.2) % UInt32.size) b.seenUnary.toList h).imp_left ?_
  rintro ⟨e', he', hkey⟩
  rcases Tally.key_of_mem_foldl_alter id (fun _ _ => 0) b.declared he' with ⟨_, hnone, -⟩ | ⟨key, hmem, hkey'⟩
  · cases hnone
  · exact hkey ▸ hkey' ▸ hmem

theorem has_binaryRules {b : GrammarBuilder} {e : BinaryKey × Nat} (he : e ∈ b.seenBinary.entries) :
    b.binaryRules.Has (b.explain e.1) :=
  Tally.has_foldl_alter (fun e : BinaryKey × Nat => b.explain e.1) (fun e o => (o.getD 0 + e.2) % UInt32.size) _ he _

theorem has_unaryRules {b : GrammarBuilder} {e : UnaryKey × Nat} (he : e ∈ b.seenUnary.entries) :
    b.unaryRules.Has e.1 :=
  Tally.has_foldl_alter (fun e : UnaryKey × Nat => e.1) (fun e o => (o.getD 0 + e.2) % UInt32.size) _ he _

theorem isUnary_of_mem_unaryRules (hb : Made b) {e : UnaryKey × Nat} (h : e ∈ b.unaryRules.entries) :
    e.1.combinator.isUnary = true := by
  obtain ⟨hdeclared, hseen⟩ := hb.isUnary
  obtain hmem | ⟨e', he', hkey⟩ := key_of_mem_unaryRules h
  · exact hdeclared _ hmem
  · exact hkey ▸ hseen e' he'

end GrammarBuilder

/-- What a description gives of a rule. -/
def Rule.name (r : Rule) : Combinator × CatId × Production := (r.combinator, r.result, r.production)

namespace GrammarBuilder

variable {b : GrammarBuilder} {gid : Nat} {g : Grammar}

theorem mem_unnumbered {make : RuleId → Rule} (h : make ∈ b.unnumbered) :
    (∃ c n, (c, n) ∈ b.lexical.entries ∧ make = fun id => ⟨id, .lexical, .lexical, c, .terminal, n⟩) ∨
      (∃ key n, (key, n) ∈ b.binaryRules.entries ∧ make = fun id =>
        ⟨id, b.ruleType key, key.combinator, key.result, .binary key.left key.right, n⟩) ∨
      (∃ key n, (key, n) ∈ b.unaryRules.entries ∧ make = fun id =>
        ⟨id, .unary, key.combinator, key.result, .unary key.child, n⟩) ∨
      ∃ c n, (c, n) ∈ b.start.entries ∧ make = fun id => ⟨id, .top, .top, c, .unary c, n⟩ := by
  simp only [unnumbered, List.mem_append] at h
  rcases h with ((hlexical | hbinary) | hunary) | htop
  · obtain ⟨⟨c, n⟩, hmem, rfl⟩ := List.mem_map.mp hlexical
    exact .inl ⟨c, n, hmem, rfl⟩
  · obtain ⟨⟨key, n⟩, hmem, rfl⟩ := List.mem_map.mp hbinary
    exact .inr (.inl ⟨key, n, List.mem_of_mem_filter hmem, rfl⟩)
  · obtain ⟨⟨key, n⟩, hmem, rfl⟩ := List.mem_map.mp hunary
    exact .inr (.inr (.inl ⟨key, n, List.mem_of_mem_filter hmem, rfl⟩))
  · obtain ⟨⟨c, n⟩, hmem, rfl⟩ := List.mem_map.mp htop
    exact .inr (.inr (.inr ⟨c, n, hmem, rfl⟩))

theorem numbered_of_mem_unnumbered {make : RuleId → Rule} (h : make ∈ b.unnumbered) (id : RuleId) :
    make id = { make 0 with id := id } := by
  obtain ⟨_, _, -, rfl⟩ | ⟨_, _, -, rfl⟩ | ⟨_, _, -, rfl⟩ | ⟨_, _, -, rfl⟩ := mem_unnumbered h <;> rfl

/-- What does not look at the numbers of rules finds them without their numbers. -/
theorem map_rules {β : Type} {f : Rule → β} (hf : ∀ (r : Rule) (id : RuleId), f { r with id := id } = f r)
    (b : GrammarBuilder) : b.rules.map f = b.unnumbered.map fun make => f (make 0) := by
  rw [rules, List.map_map, ← List.zipIdx_map_fst 0 b.unnumbered, List.map_map, List.zipIdx_map_fst]
  refine List.map_congr_left fun e he => ?_
  exact (congrArg f (numbered_of_mem_unnumbered (List.fst_mem_of_mem_zipIdx he) e.2)).trans (hf _ _)

theorem nodup_map_filter {κ ν : Type} {entries : List (κ × Nat)} (h : (entries.map Prod.fst).Nodup)
    (keep : κ × Nat → Bool) (name : κ × Nat → ν) (hname : ∀ x y, name x = name y → x.1 = y.1) :
    ((entries.filter keep).map name).Nodup := by
  refine List.pairwise_map.mpr ((List.pairwise_map.mp h).filter keep |>.imp fun {x y} hne heq => ?_)
  exact hne (hname x y heq)

/-- What is counted stands in the order of the keys, and steps are counted in 32 bits, those over two children without
a schema. -/
structure Ordered (b : GrammarBuilder) : Prop where
  lexical : Tally.Ascending b.lexical.entries
  start : Tally.Ascending b.start.entries
  unary : Tally.Ascending b.seenUnary.entries
  binary : Tally.Ascending b.seenBinary.entries
  unaryCounts : ∀ e ∈ b.seenUnary.entries, e.2 < 2 ^ 32
  binaryCounts : ∀ e ∈ b.seenBinary.entries, e.2 < 2 ^ 32
  observed : ∀ e ∈ b.seenBinary.entries, e.1.combinator = .observed

theorem Made.ordered (hb : Made b) : b.Ordered := by
  have hmod (n : Nat) (m : Option Nat) : (m.getD 0 + n) % 2 ^ 32 < 2 ^ 32 := Nat.mod_lt _ (by decide)
  refine hb.induction (P := Ordered) ⟨.nil, .nil, .nil, .nil, nofun, nofun, nofun⟩ fun hchange h => ?_
  cases hchange with
  | lexical id f => exact { h with lexical := Tally.ascending_alterEntries f id h.lexical }
  | start id f => exact { h with start := Tally.ascending_alterEntries f id h.start }
  | seenUnary child id c =>
    exact { h with
      unary := Tally.ascending_alterEntries _ _ h.unary
      unaryCounts := Tally.lt_of_mem_alterEntries (hmod 1) h.unaryCounts }
  | seenBinary left right id =>
    refine { h with
      binary := Tally.ascending_alterEntries _ _ h.binary
      binaryCounts := Tally.lt_of_mem_alterEntries (hmod 1) h.binaryCounts
      observed := fun e he => ?_ }
    rcases Tally.mem_alterEntries he with ⟨hkey, -⟩ | hold
    · rw [hkey]
    · exact h.observed e hold
  | intern c =>
    rw [intern]
    split <;> exact { h with }
  | _ => exact { h with }

theorem nodup_names (hb : Made b) : (b.unnumbered.map fun make => (make 0).name).Nodup := by
  have hlexical := nodup_map_filter hb.ordered.lexical.nodup (fun _ => true)
    (fun e => (Combinator.lexical, e.1, Production.terminal)) (by
      rintro ⟨_, _⟩ ⟨_, _⟩ heq
      cases heq
      rfl)
  have hbinary := nodup_map_filter (nodup_binaryRules hb) (fun e => b.minCount ≤ e.2)
    (fun e => (e.1.combinator, e.1.result, Production.binary e.1.left e.1.right)) (by
      rintro ⟨⟨_, _, _, _⟩, _⟩ ⟨⟨_, _, _, _⟩, _⟩ heq
      cases heq
      rfl)
  have hunary := nodup_map_filter (nodup_unaryRules b) (fun e => b.minCount ≤ e.2)
    (fun e => (e.1.combinator, e.1.result, Production.unary e.1.child)) (by
      rintro ⟨⟨_, _, _⟩, _⟩ ⟨⟨_, _, _⟩, _⟩ heq
      cases heq
      rfl)
  have htop := nodup_map_filter hb.ordered.start.nodup (fun _ => true)
    (fun e => (Combinator.top, e.1, Production.unary e.1)) (by
      rintro ⟨_, _⟩ ⟨_, _⟩ heq
      cases heq
      rfl)
  rw [List.filter_true] at hlexical htop
  simp only [unnumbered, List.map_append, List.map_map, Function.comp_def, Rule.name, List.nodup_append,
    List.mem_append, List.mem_map, List.mem_filter, Prod.exists]
  refine ⟨⟨⟨hlexical, hbinary, ?_⟩, hunary, ?_⟩, htop, ?_⟩
  · rintro _ ⟨c, n, -, rfl⟩ _ ⟨key, m, -, rfl⟩ heq
    simp at heq
  · rintro _ (⟨c, n, -, rfl⟩ | ⟨key, n, -, rfl⟩) _ ⟨key', m, -, rfl⟩ heq <;> simp at heq
  · rintro _ ((⟨c, n, -, rfl⟩ | ⟨key, n, -, rfl⟩) | ⟨key, n, ⟨hmem, -⟩, rfl⟩) _ ⟨c', m, -, rfl⟩ heq
    · simp at heq
    · simp at heq
    · -- no unary schema is that of top rules
      have hunary := isUnary_of_mem_unaryRules hb hmem
      injection heq with hcombinator
      rw [hcombinator] at hunary
      cases hunary

theorem unnumbered_of_rule? (h : b.build gid = .ok g) {id : RuleId} {r : Rule} (hr : g.rule? id = some r) :
    ∃ make, b.unnumbered[id]? = some make ∧ r = make id := by
  obtain ⟨_, _, _, hrules⟩ := Grammar.contents_ofRules (ofRules_of_build h)
  rw [Grammar.rule?, ← Array.getElem?_toList, hrules, rules, List.getElem?_map, List.getElem?_zipIdx] at hr
  cases hmake : b.unnumbered[id]? with
  | none => simp [hmake] at hr
  | some make =>
    rw [hmake] at hr
    simp only [Option.map_some, Option.some.injEq, Nat.zero_add] at hr
    exact ⟨make, rfl, hr.symm⟩

theorem rule_unique (hb : Made b) (h : b.build gid = .ok g) {i j : RuleId} {r s : Rule}
    (hr : g.rule? i = some r) (hs : g.rule? j = some s) (hname : r.name = s.name) : i = j := by
  obtain ⟨_, _, _, hrules⟩ := Grammar.contents_ofRules (ofRules_of_build h)
  have hnodup : (g.rules.toList.map Rule.name).Nodup := by
    rw [hrules, map_rules (fun _ _ => rfl)]
    exact nodup_names hb
  have hnamed {k : RuleId} {q : Rule} (hq : g.rule? k = some q) : (g.rules.toList.map Rule.name)[k]? = some q.name := by
    rw [List.getElem?_map, Array.getElem?_toList, ← Grammar.rule?, hq, Option.map_some]
  have hi := hnamed hr
  obtain ⟨hlt, -⟩ := List.getElem?_eq_some_iff.mp hi
  exact (List.getElem?_inj hlt hnodup).mp (hi.trans (hname ▸ (hnamed hs).symm))

theorem ruleType_eq_or (b : GrammarBuilder) (key : BinaryKey) :
    b.ruleType key = .leftBinary ∨ b.ruleType key = .rightBinary := by
  unfold ruleType
  split
  · cases b.headSide key.combinator _ _ <;> simp [RuleType.ofHeadSide]
  · exact .inl rfl

theorem isUnary_of_rule? (hb : Made b) (h : b.build gid = .ok g) {id : RuleId} {r : Rule}
    (hr : g.rule? id = some r) (htype : r.ruleType = .unary) : r.combinator.isUnary = true := by
  obtain ⟨make, hmake, rfl⟩ := unnumbered_of_rule? h hr
  obtain ⟨_, _, -, rfl⟩ | ⟨key, _, -, rfl⟩ | ⟨key, _, hkey, rfl⟩ | ⟨_, _, -, rfl⟩ :=
    mem_unnumbered (List.mem_of_getElem? hmake)
  · cases htype
  · rcases b.ruleType_eq_or key with hbinary | hbinary <;> cases hbinary.symm.trans htype
  · exact isUnary_of_mem_unaryRules hb hkey
  · cases htype

end GrammarBuilder

namespace Grammar

variable {g : Grammar}

theorem isRule_iff {combinator : Combinator} {result : CatId} {id : RuleId} :
    g.isRule combinator result id = true ↔
      ∃ r, g.rule? id = some r ∧ r.combinator = combinator ∧ r.result = result := by
  cases hr : g.rule? id <;> simp [isRule, hr]

/-- The only rule of its kind with this combinator and this result is found. -/
theorem Indexed.find?_isRule (hg : g.Indexed) {kind : Rule → Bool} {id : RuleId} {r : Rule}
    (hr : g.rule? id = some r) (hkind : kind r = true)
    (hunique : ∀ id' r', g.rule? id' = some r' → kind r' = true → r'.combinator = r.combinator →
      r'.result = r.result → id' = id) :
    (g.idsWhere kind).find? (g.isRule r.combinator r.result) = some id := by
  have hmem : id ∈ g.idsWhere kind := hg.mem_idsWhere.mpr ⟨r, hr, hkind⟩
  have hsome := List.find?_isSome.mpr ⟨id, hmem, isRule_iff.mpr ⟨r, hr, rfl, rfl⟩⟩
  obtain ⟨id', hfound⟩ := Option.isSome_iff_exists.mp hsome
  obtain ⟨r', hr', hkind'⟩ := hg.mem_idsWhere.mp (List.mem_of_find?_eq_some hfound)
  obtain ⟨_, hr'', hcombinator, hresult⟩ := isRule_iff.mp (List.find?_some hfound)
  cases hr'.symm.trans hr''
  rw [hfound, hunique id' r' hr' hkind' hcombinator hresult]

end Grammar

namespace GrammarBuilder

variable {b : GrammarBuilder} {gid : Nat} {g : Grammar}

theorem findRule?_binary (hb : Made b) (h : b.build gid = .ok g) {id : RuleId} {r : Rule}
    (hr : g.rule? id = some r) {left right : CatId} (hproduction : r.production = .binary left right) :
    g.findRule? r.combinator r.result (.binary left right) = some id := by
  have hg := Grammar.indexed_ofRules (ofRules_of_build h)
  rw [Grammar.findRule?, hg.binaryRules]
  refine hg.find?_isRule hr (by simp [Grammar.binaryFor, hproduction])
    fun id' r' hr' hkind hcombinator hresult => ?_
  have hproduction' : r'.production = .binary left right := by simpa [Grammar.binaryFor] using hkind
  exact rule_unique hb h hr' hr (by simp [Rule.name, hcombinator, hresult, hproduction, hproduction'])

theorem findRule?_unary (hb : Made b) (h : b.build gid = .ok g) {id : RuleId} {r : Rule}
    (hr : g.rule? id = some r) (htype : r.ruleType = .unary) {child : CatId}
    (hproduction : r.production = .unary child) :
    g.findRule? r.combinator r.result (.unary child) = some id := by
  have hg := Grammar.indexed_ofRules (ofRules_of_build h)
  have htop : r.combinator ≠ .top := by
    intro htop
    have hunary := isUnary_of_rule? hb h hr htype
    rw [htop] at hunary
    cases hunary
  rw [Grammar.findRule?, if_neg htop, hg.unaryRules]
  refine hg.find?_isRule hr (by simp [Grammar.unaryFor, htype, hproduction])
    fun id' r' hr' hkind hcombinator hresult => ?_
  obtain ⟨-, hproduction'⟩ : r'.ruleType = .unary ∧ r'.production = .unary child := by
    simpa [Grammar.unaryFor] using hkind
  exact rule_unique hb h hr' hr (by simp [Rule.name, hcombinator, hresult, hproduction, hproduction'])

end GrammarBuilder

end Categorial
