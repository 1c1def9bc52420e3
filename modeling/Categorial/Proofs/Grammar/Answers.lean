import Categorial.Proofs.Grammar.Obtained
set_option autoImplicit false

namespace Categorial

namespace Grammar

def Lists (g : Grammar) (ids : List RuleId) (p : Rule → Prop) : Prop :=
  ids.Pairwise (· < ·) ∧ ∀ i, i ∈ ids ↔ ∃ r, g.rule? i = some r ∧ p r

/-- A codebook whose ids mean what they should and whose indexes miss nothing and add nothing. -/
structure Answers (g : Grammar) : Prop where
  inRange : ∀ r ∈ g.rules, r.result < g.size ∧
    ∀ c, r.production.left? = some c ∨ r.production.right? = some c → c < g.size
  id_eq : ∀ i r, g.rule? i = some r → r.id = i
  distinct : ∀ i j c, g.category? i = some c → g.category? j = some c → i = j
  binaryRules : ∀ left right, g.Lists (g.binaryRules left right) fun r => r.production = .binary left right
  leftRules : ∀ c, g.Lists (g.rulesFor c .left) fun r => ∃ right, r.production = .binary c right
  rightRules : ∀ c, g.Lists (g.rulesFor c .right) fun r => ∃ left, r.production = .binary left c
  unaryRules : ∀ c, g.Lists (g.unaryRules c) fun r => r.ruleType = .unary ∧ r.production = .unary c
  isLexical : ∀ c, g.isLexical c = true ↔ ∃ i, g.lexicalRule? c = some i
  lexicalRule? : ∀ c, (∃ i, g.lexicalRule? c = some i) ↔ ∃ r ∈ g.rules, r.ruleType = .lexical ∧ r.result = c
  isStart : ∀ c, g.isStart c = true ↔ c ∈ g.start
  start : ∀ c, c ∈ g.start ↔ ∃ r ∈ g.rules, r.ruleType = .top ∧ r.production = .unary c
  combine? : ∀ i left right result, g.combine? i left right = some result ↔
    i ∈ g.binaryRules left right ∧ ∃ r, g.rule? i = some r ∧ r.result = result

-- The rules with a child on one side.

def sideFor (c : CatId) (side : Side) (r : Rule) : Bool :=
  match side, r.production with
  | .left, .binary left _ => left == c
  | .right, .binary _ right => right == c
  | _, _ => false

theorem sideFor_left {c : CatId} {r : Rule} : sideFor c .left r = true ↔ ∃ right, r.production = .binary c right := by
  cases hp : r.production <;> simp [sideFor, hp]

theorem sideFor_right {c : CatId} {r : Rule} : sideFor c .right r = true ↔ ∃ left, r.production = .binary left c := by
  cases hp : r.production <;> simp [sideFor, hp]

def SidesListed (g : Grammar) : Prop := ∀ c side, g.rulesFor c side = g.idsWhere (sideFor c side)

theorem sidesListed_addRule {g g' : Grammar} {r : Rule} (hg : g.SidesListed) (h : g.addRule r = .ok g') :
    g'.SidesListed := by
  intro c side
  rw [idsWhere_push (addRule_rules h), ← hg c side]
  obtain ⟨-, ⟨_, hp, rfl⟩ | ⟨_, _, hp, rfl⟩ | ⟨_, _, hp, rfl⟩ | ⟨_, _, _, hp, rfl⟩⟩ := addRule_cases h
  · cases side <;> simp [rulesFor, sideFor, hp]
  · cases side <;> simp [rulesFor, sideFor, hp]
  · cases side <;> simp [rulesFor, sideFor, hp]
  · cases side <;> simp [rulesFor, sideFor, hp, getD_push]

-- The flags of the lexical categories.

/-- Every category has a flag, which is set where there is a lexical rule for it. -/
def Flagged (g : Grammar) : Prop :=
  g.lexicalFlags.size = g.size ∧ ∀ c, g.isLexical c = (g.lexicalRule? c).isSome

theorem flagged_addRule {g g' : Grammar} {r : Rule} (hg : g.Flagged) (h : g.addRule r = .ok g') : g'.Flagged := by
  obtain ⟨hsize, hflags⟩ := hg
  have hresult : r.result < g.lexicalFlags.size := hsize ▸ (addRule_inRange h).1
  obtain ⟨-, ⟨_, _, rfl⟩ | ⟨_, _, _, rfl⟩ | ⟨_, _, _, rfl⟩ | ⟨_, _, _, _, rfl⟩⟩ := addRule_cases h
  · refine ⟨by simpa [size] using hsize, fun c => ?_⟩
    have hc := hflags c
    simp only [isLexical, lexicalRule?, Array.getD_eq_getD_getElem?, Array.getElem?_setIfInBounds,
      Std.HashMap.getElem?_insert, beq_iff_eq] at hc ⊢
    by_cases heq : r.result = c
    · simp [heq, heq ▸ hresult]
    · simpa [heq] using hc
  · exact ⟨hsize, hflags⟩
  · exact ⟨hsize, hflags⟩
  · exact ⟨hsize, hflags⟩

theorem Obtained.sidesListed {g : Grammar} (hg : g.Obtained) : g.SidesListed := by
  obtain ⟨_, _, _, _, hrules, -⟩ := hg.exists_ofRules
  obtain ⟨catIds, -, hfold, -⟩ := ofRules_eq_ok.mp hrules
  refine foldlM_ok_induction (fun _ _ _ hs hstep => sidesListed_addRule hs hstep) hfold fun c side => ?_
  cases side <;> simp [rulesFor, ofCategories, idsWhere]

theorem Obtained.flagged {g : Grammar} (hg : g.Obtained) : g.Flagged := by
  obtain ⟨_, _, _, _, hrules, -⟩ := hg.exists_ofRules
  obtain ⟨catIds, -, hfold, -⟩ := ofRules_eq_ok.mp hrules
  refine foldlM_ok_induction (fun _ _ _ hs hstep => flagged_addRule hs hstep) hfold ⟨?_, fun c => ?_⟩
  · simp [ofCategories, size]
  · simp only [isLexical, lexicalRule?, ofCategories, Array.getD_eq_getD_getElem?, Array.getElem?_replicate]
    split <;> simp

-- From the indexes to the rules.

namespace Indexed

variable {g : Grammar} (hg : g.Indexed)
include hg

theorem idsWhere_pairwise (kind : Rule → Bool) : (g.idsWhere kind).Pairwise (· < ·) := by
  have hsub : List.Sublist (g.idsWhere kind) (g.rules.toList.map Rule.id) := List.filter_sublist.map Rule.id
  rw [hg.positions] at hsub
  exact List.pairwise_lt_range.sublist hsub

theorem lists_idsWhere (kind : Rule → Bool) : g.Lists (g.idsWhere kind) fun r => kind r = true :=
  ⟨hg.idsWhere_pairwise kind, fun _ => hg.mem_idsWhere⟩

end Indexed

theorem Lists.congr {g : Grammar} {ids : List RuleId} {p q : Rule → Prop} (h : g.Lists ids p)
    (hpq : ∀ r, p r ↔ q r) : g.Lists ids q := by
  simpa only [Lists, hpq] using h

theorem combine?_eq_some_iff {g : Grammar} {i : RuleId} {left right result : CatId} :
    g.combine? i left right = some result ↔ g.BinaryRule i left right result := by
  unfold combine? BinaryRule
  cases g.rule? i <;> simp

/-- Every codebook that is built or loaded answers right. -/
theorem Obtained.answers {g : Grammar} (hg : g.Obtained) : g.Answers := by
  have hindexed := hg.indexed
  obtain ⟨_, _, _, _, hrules, -⟩ := hg.exists_ofRules
  obtain ⟨_, -, hcontents, -⟩ := contents_ofRules hrules
  have hbinary (left right : CatId) : g.Lists (g.binaryRules left right) fun r => r.production = .binary left right :=
    hindexed.binaryRules left right ▸ (hindexed.lists_idsWhere _).congr fun r => by simp [binaryFor]
  exact {
    inRange := hcontents.rules
    id_eq := fun _ _ => hindexed.id_of_rule?
    distinct := fun i j c hi hj => Option.some.inj ((hg.readable.ids i c hi).symm.trans (hg.readable.ids j c hj))
    binaryRules := hbinary
    leftRules := fun c => hg.sidesListed c .left ▸ (hindexed.lists_idsWhere _).congr fun r => sideFor_left
    rightRules := fun c => hg.sidesListed c .right ▸ (hindexed.lists_idsWhere _).congr fun r => sideFor_right
    unaryRules := fun c => hindexed.unaryRules c ▸ (hindexed.lists_idsWhere _).congr fun r => by simp [unaryFor]
    isLexical := fun c => by rw [hg.flagged.2, Option.isSome_iff_exists]
    lexicalRule? := fun c => by
      rw [← Option.isSome_iff_exists, hindexed.lexicalRule?, isSome_getLast?_idsWhere]
      simp [lexicalFor]
    isStart := fun _ => hg.isStart_iff
    start := hg.startsListed
    combine? := fun i left right result => by
      rw [combine?_eq_some_iff, (hbinary left right).2]
      constructor
      · rintro ⟨r, hr, hp, hresult⟩
        exact ⟨⟨r, hr, hp⟩, r, hr, hresult⟩
      · rintro ⟨⟨r, hr, hp⟩, r', hr', hresult⟩
        cases hr.symm.trans hr'
        exact ⟨r, hr, hp, hresult⟩ }

end Grammar

namespace Observed

theorem answers_builder : ∃ g : Grammar, g.Obtained ∧ 2 ∈ g.binaryRules 1 2 ∧ 2 ∈ g.rulesFor 2 .right ∧
    g.combine? 2 1 2 = some 0 ∧ g.isLexical 1 = true ∧ g.isLexical 0 = false ∧ g.isStart 0 = true := by
  obtain ⟨g, hbuild, -⟩ := exists_build
  have hg : g.Obtained := .built made_builder hbuild
  have hanswers := hg.answers
  obtain ⟨_, -, -, hlist⟩ := Grammar.contents_ofRules (GrammarBuilder.ofRules_of_build hbuild)
  rw [rules_builder] at hlist
  have happly : g.rule? 2 = some ⟨2, .rightBinary, .bwdApp, 0, .binary 1 2, 1⟩ := by
    rw [Grammar.rule?, ← Array.getElem?_toList, hlist]
    rfl
  have hbinary : 2 ∈ g.binaryRules 1 2 := ((hanswers.binaryRules 1 2).2 2).mpr ⟨_, happly, rfl⟩
  have hright : 2 ∈ g.rulesFor 2 .right := ((hanswers.rightRules 2).2 2).mpr ⟨_, happly, 1, rfl⟩
  have hcombine : g.combine? 2 1 2 = some 0 := (hanswers.combine? 2 1 2 0).mpr ⟨hbinary, _, happly, rfl⟩
  have hlexical (c : CatId) : g.isLexical c = true ↔ ∃ r ∈ g.rules.toList, r.ruleType = .lexical ∧ r.result = c := by
    rw [hanswers.isLexical, hanswers.lexicalRule?]
    simp only [Array.mem_toList_iff]
  have hstart : g.isStart 0 = true := by
    rw [hanswers.isStart, hanswers.start]
    exact ⟨⟨3, .top, .top, 0, .unary 0, 1⟩, by rw [← Array.mem_toList_iff, hlist]; decide, rfl, rfl⟩
  refine ⟨g, hg, hbinary, hright, hcombine, (hlexical 1).mpr ?_, Bool.eq_false_iff.mpr ((hlexical 0).not.mpr ?_),
    hstart⟩
  · rw [hlist]
    decide
  · rw [hlist]
    decide

end Observed

end Categorial
