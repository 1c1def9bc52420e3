import Categorial.Grammar.Basic
import Categorial.Proofs.Except
import Mathlib.Data.List.Nodup
set_option autoImplicit false

namespace Categorial

namespace Grammar

/-- The ids of the rules of some kind, in order. -/
def idsWhere (g : Grammar) (kind : Rule → Bool) : List RuleId :=
  (g.rules.toList.filter kind).map Rule.id

def lexicalFor (c : CatId) (r : Rule) : Bool := r.ruleType == .lexical && r.result == c

def topFor (c : CatId) (r : Rule) : Bool := r.ruleType == .top && r.production == .unary c

def unaryFor (c : CatId) (r : Rule) : Bool := r.ruleType == .unary && r.production == .unary c

def binaryFor (left right : CatId) (r : Rule) : Bool := r.production == .binary left right

/-- Every index answers with the rules of its kind, and rules are numbered by their positions. -/
structure Indexed (g : Grammar) : Prop where
  positions : g.rules.toList.map Rule.id = List.range g.rules.size
  binaryRules : ∀ left right, g.binaryRules left right = g.idsWhere (binaryFor left right)
  unaryRules : ∀ c, g.unaryRules c = g.idsWhere (unaryFor c)
  lexicalRule? : ∀ c, g.lexicalRule? c = (g.idsWhere (lexicalFor c)).getLast?
  topRule? : ∀ c, g.topRule? c = (g.idsWhere (topFor c)).getLast?

def BinaryRule (g : Grammar) (id : RuleId) (left right result : CatId) : Prop :=
  ∃ r, g.rule? id = some r ∧ r.production = .binary left right ∧ r.result = result

def UnaryRule (g : Grammar) (id : RuleId) (child result : CatId) : Prop :=
  ∃ r, g.rule? id = some r ∧ r.ruleType = .unary ∧ r.production = .unary child ∧ r.result = result

theorem idsWhere_push {g g' : Grammar} {r : Rule} (h : g'.rules = g.rules.push r)
    (kind : Rule → Bool) :
    g'.idsWhere kind = g.idsWhere kind ++ if kind r then [r.id] else [] := by
  unfold idsWhere
  rw [h, Array.toList_push, List.filter_append, List.map_append]
  by_cases hk : kind r = true
  · simp [hk]
  · simp [hk]

theorem isSome_getLast?_idsWhere {g : Grammar} {kind : Rule → Bool} :
    (g.idsWhere kind).getLast?.isSome = true ↔ ∃ r ∈ g.rules, kind r = true := by
  rw [List.getLast?_isSome, idsWhere, List.map_eq_nil_iff.ne, ne_eq, List.filter_eq_nil_iff]
  simp

theorem indexed_ofCategories (id : Nat) (categories : Array Category)
    (catIds : Std.HashMap String CatId) (markups : List (CatId × Markup)) :
    (ofCategories id categories catIds markups).Indexed where
  positions := rfl
  binaryRules left right := by simp [Grammar.binaryRules, ofCategories, idsWhere]
  unaryRules c := by simp [Grammar.unaryRules, ofCategories, idsWhere]
  lexicalRule? c := by simp [Grammar.lexicalRule?, ofCategories, idsWhere]
  topRule? c := by simp [Grammar.topRule?, ofCategories, idsWhere]

theorem positions_push {g g' : Grammar} {r : Rule} (h : g'.rules = g.rules.push r)
    (hid : r.id = g.rules.size) (hg : g.rules.toList.map Rule.id = List.range g.rules.size) :
    g'.rules.toList.map Rule.id = List.range g'.rules.size := by
  rw [h, Array.toList_push, List.map_append, hg, Array.size_push, List.range_succ]
  simp [hid]

/-- What adding a rule does: it takes the next number, and one index learns of it. -/
theorem addRule_cases {g g' : Grammar} {r : Rule} (h : g.addRule r = .ok g') :
    r.id = g.rules.size ∧
      ((r.ruleType = .lexical ∧ r.production = .terminal ∧
          g' = { g with
            rules := g.rules.push r
            lexical := g.lexical.insert r.result r.id
            lexicalFlags := g.lexicalFlags.setIfInBounds r.result true }) ∨
        (∃ c, r.ruleType = .top ∧ r.production = .unary c ∧
          g' = { g with rules := g.rules.push r, top := g.top.insert c r.id, start := g.start ++ [c] }) ∨
        (∃ c, r.ruleType = .unary ∧ r.production = .unary c ∧
          g' = { g with rules := g.rules.push r, unary := push g.unary c r.id }) ∨
        ∃ left right, r.ruleType.isBinary = true ∧ r.production = .binary left right ∧
          g' = { g with
            rules := g.rules.push r
            binary := push g.binary (left, right) r.id
            byLeft := push g.byLeft left r.id
            byRight := push g.byRight right r.id }) := by
  unfold addRule at h
  by_cases hid : r.id = g.rules.size
  · refine ⟨hid, ?_⟩
    simp only [hid, ne_eq, not_true_eq_false, if_false] at h ⊢
    obtain ⟨_, _, h⟩ := except_bind_eq_ok.mp h
    split at h
    · rename_i ht hp
      cases h
      exact .inl ⟨ht, hp, rfl⟩
    · rename_i c ht hp
      obtain ⟨_, _, h⟩ := except_bind_eq_ok.mp h
      cases h
      exact .inr (.inl ⟨c, ht, hp, rfl⟩)
    · rename_i c ht hp
      obtain ⟨_, _, h⟩ := except_bind_eq_ok.mp h
      cases h
      exact .inr (.inr (.inl ⟨c, ht, hp, rfl⟩))
    · rename_i left right hp
      split at h
      · rename_i hb
        obtain ⟨_, _, h⟩ := except_bind_eq_ok.mp h
        obtain ⟨_, _, h⟩ := except_bind_eq_ok.mp h
        cases h
        exact .inr (.inr (.inr ⟨left, right, hb, hp, rfl⟩))
      · cases h
    · cases h
  · simp [hid, bind, Except.bind] at h

theorem addRule_rules {g g' : Grammar} {r : Rule} (h : g.addRule r = .ok g') :
    g'.rules = g.rules.push r := by
  obtain ⟨_, ⟨_, _, rfl⟩ | ⟨_, _, _, rfl⟩ | ⟨_, _, _, rfl⟩ | ⟨_, _, _, _, rfl⟩⟩ := addRule_cases h <;>
    rfl

theorem getD_push {κ : Type} [BEq κ] [Hashable κ] [LawfulBEq κ] [LawfulHashable κ]
    (index : Std.HashMap κ (List RuleId)) (key key' : κ) (id : RuleId) :
    (push index key id).getD key' [] =
      index.getD key' [] ++ if key == key' then [id] else [] := by
  unfold push
  rw [Std.HashMap.getD_insert]
  by_cases hk : key == key'
  · simp [eq_of_beq hk]
  · simp [hk]

theorem getLast?_append_ite (ids : List RuleId) (id : RuleId) (p : Bool) :
    (ids ++ if p then [id] else []).getLast? = if p then some id else ids.getLast? := by
  cases p <;> simp

theorem indexed_addRule {g g' : Grammar} {r : Rule} (hg : g.Indexed) (h : g.addRule r = .ok g') :
    g'.Indexed := by
  have hrules := addRule_rules h
  obtain ⟨hid, hcases⟩ := addRule_cases h
  constructor
  · exact positions_push hrules hid hg.positions
  · intro left right
    rw [idsWhere_push hrules, ← hg.binaryRules]
    obtain ⟨_, hp, rfl⟩ | ⟨_, _, hp, rfl⟩ | ⟨_, _, hp, rfl⟩ | ⟨l, r', _, hp, rfl⟩ := hcases
    · simp [Grammar.binaryRules, binaryFor, hp]
    · simp [Grammar.binaryRules, binaryFor, hp]
    · simp [Grammar.binaryRules, binaryFor, hp]
    · simp [Grammar.binaryRules, binaryFor, hp, getD_push]
  · intro c
    rw [idsWhere_push hrules, ← hg.unaryRules]
    obtain ⟨ht, hp, rfl⟩ | ⟨_, ht, hp, rfl⟩ | ⟨_, ht, hp, rfl⟩ | ⟨_, _, _, hp, rfl⟩ := hcases
    · simp [Grammar.unaryRules, unaryFor, hp]
    · simp [Grammar.unaryRules, unaryFor, ht]
    · simp [Grammar.unaryRules, unaryFor, ht, hp, getD_push]
    · simp [Grammar.unaryRules, unaryFor, hp]
  · intro c
    rw [idsWhere_push hrules, getLast?_append_ite, ← hg.lexicalRule?]
    obtain ⟨ht, hp, rfl⟩ | ⟨_, ht, hp, rfl⟩ | ⟨_, ht, hp, rfl⟩ | ⟨_, _, ht, hp, rfl⟩ := hcases
    · simp [Grammar.lexicalRule?, lexicalFor, ht, Std.HashMap.getElem?_insert]
    · simp [Grammar.lexicalRule?, lexicalFor, ht]
    · simp [Grammar.lexicalRule?, lexicalFor, ht]
    · have hne : r.ruleType ≠ .lexical := by
        intro hl
        simp [hl, RuleType.isBinary] at ht
      simp [Grammar.lexicalRule?, lexicalFor, hne]
  · intro c
    rw [idsWhere_push hrules, getLast?_append_ite, ← hg.topRule?]
    obtain ⟨ht, hp, rfl⟩ | ⟨_, ht, hp, rfl⟩ | ⟨_, ht, hp, rfl⟩ | ⟨_, _, _, hp, rfl⟩ := hcases
    · simp [Grammar.topRule?, topFor, ht]
    · simp [Grammar.topRule?, topFor, ht, hp, Std.HashMap.getElem?_insert]
    · simp [Grammar.topRule?, topFor, ht]
    · simp [Grammar.topRule?, topFor, hp]

namespace Indexed

variable {g : Grammar}

theorem idsWhere_nodup (hg : g.Indexed) (kind : Rule → Bool) : (g.idsWhere kind).Nodup := by
  have hsub : List.Sublist (g.idsWhere kind) (g.rules.toList.map Rule.id) :=
    List.filter_sublist.map Rule.id
  rw [hg.positions] at hsub
  exact hsub.nodup List.nodup_range

theorem id_of_rule? (hg : g.Indexed) {id : RuleId} {r : Rule} (hr : g.rule? id = some r) :
    r.id = id := by
  obtain ⟨hi, hget⟩ := Array.getElem?_eq_some_iff.mp hr
  have hpos : (g.rules.toList.map Rule.id)[id]? = (List.range g.rules.size)[id]? := by
    rw [hg.positions]
  simpa [hi, hget] using hpos

theorem mem_idsWhere (hg : g.Indexed) {kind : Rule → Bool} {id : RuleId} :
    id ∈ g.idsWhere kind ↔ ∃ r, g.rule? id = some r ∧ kind r = true := by
  unfold idsWhere
  constructor
  · intro h
    obtain ⟨r, hr, rfl⟩ := List.mem_map.mp h
    obtain ⟨hmem, hkind⟩ := List.mem_filter.mp hr
    obtain ⟨i, hi⟩ := Array.mem_iff_getElem?.mp (Array.mem_toList_iff.mp hmem)
    have hid : r.id = i := hg.id_of_rule? hi
    exact ⟨r, hid ▸ hi, hkind⟩
  · rintro ⟨r, hr, hkind⟩
    have hmem : r ∈ g.rules.toList := Array.mem_toList_iff.mpr (Array.mem_of_getElem? hr)
    exact List.mem_map.mpr ⟨r, List.mem_filter.mpr ⟨hmem, hkind⟩, hg.id_of_rule? hr⟩

/-- The steps that a chart tries for two categories are those of the binary rules on them. -/
theorem binaryRules_combine? (hg : g.Indexed) {id : RuleId} {left right result : CatId} :
    (id ∈ g.binaryRules left right ∧ g.combine? id left right = some result) ↔
      g.BinaryRule id left right result := by
  rw [hg.binaryRules, hg.mem_idsWhere]
  constructor
  · rintro ⟨⟨r, hr, hkind⟩, hc⟩
    have hp : r.production = .binary left right := by simpa [binaryFor] using hkind
    simp only [combine?, hr, hp, if_true, Option.some.injEq] at hc
    exact ⟨r, hr, hp, hc⟩
  · rintro ⟨r, hr, hp, hres⟩
    exact ⟨⟨r, hr, by simp [binaryFor, hp]⟩, by simp [combine?, hr, hp, hres]⟩

theorem unaryRules_combineUnary? (hg : g.Indexed) {id : RuleId} {child result : CatId} :
    (id ∈ g.unaryRules child ∧ g.combineUnary? id child = some result) ↔
      g.UnaryRule id child result := by
  rw [hg.unaryRules, hg.mem_idsWhere]
  constructor
  · rintro ⟨⟨r, hr, hkind⟩, hc⟩
    obtain ⟨ht, hp⟩ : r.ruleType = .unary ∧ r.production = .unary child := by
      simpa [unaryFor] using hkind
    simp only [combineUnary?, hr, hp, if_true, Option.some.injEq] at hc
    exact ⟨r, hr, ht, hp, hc⟩
  · rintro ⟨r, hr, ht, hp, hres⟩
    exact ⟨⟨r, hr, by simp [unaryFor, ht, hp]⟩, by simp [combineUnary?, hr, hp, hres]⟩

theorem rule_of_lexicalRule? (hg : g.Indexed) {c : CatId} {id : RuleId} (h : g.lexicalRule? c = some id) :
    ∃ r, g.rule? id = some r ∧ r.ruleType = .lexical ∧ r.result = c := by
  rw [hg.lexicalRule?] at h
  obtain ⟨r, hr, hkind⟩ := hg.mem_idsWhere.mp (List.mem_of_getLast? h)
  exact ⟨r, hr, by simpa [lexicalFor] using hkind⟩

theorem rule_of_topRule? (hg : g.Indexed) {c : CatId} {id : RuleId} (h : g.topRule? c = some id) :
    ∃ r, g.rule? id = some r ∧ r.ruleType = .top ∧ r.production = .unary c := by
  rw [hg.topRule?] at h
  obtain ⟨r, hr, hkind⟩ := hg.mem_idsWhere.mp (List.mem_of_getLast? h)
  exact ⟨r, hr, by simpa [topFor] using hkind⟩

end Indexed

theorem indexCategories_ok {categories : List Category} : ∀ {next : CatId}
    {known : Std.HashMap String CatId}, (∀ c ∈ categories, c.text ∉ known) →
    (categories.map Category.text).Nodup →
    ∃ catIds, indexCategories next known categories = .ok catIds := by
  induction categories with
  | nil => exact fun _ _ => ⟨_, rfl⟩
  | cons c categories ih =>
    intro next known hnew hnodup
    obtain ⟨hfirst, hrest⟩ := List.nodup_cons.mp hnodup
    have hc : known.contains c.text = false := by simpa using hnew c (by simp)
    rw [indexCategories, hc]
    refine ih (fun d hd => ?_) hrest
    rw [Std.HashMap.mem_insert]
    rintro (heq | hmem)
    · exact hfirst (List.mem_map.mpr ⟨d, hd, (eq_of_beq heq).symm⟩)
    · exact hnew d (by simp [hd]) hmem

section

variable {id : Nat} {categories : Array Category} {rules : List Rule} {markups : List (CatId × Markup)} {g : Grammar}

/-- A codebook is what the last rule leaves, if there is a start category. -/
theorem ofRules_eq_ok : ofRules id categories rules markups = .ok g ↔
    ∃ catIds, indexCategories 0 ∅ categories.toList = .ok catIds ∧
      rules.foldlM addRule (ofCategories id categories catIds markups) = .ok g ∧ g.start ≠ [] := by
  unfold ofRules
  rw [except_bind_eq_ok]
  refine exists_congr fun catIds => and_congr_right fun _ => ?_
  rw [except_bind_eq_ok]
  constructor
  · rintro ⟨g', hfold, h⟩
    split at h
    · cases h
    · rename_i hstart
      cases h
      exact ⟨hfold, by simpa using hstart⟩
  · rintro ⟨hfold, hstart⟩
    refine ⟨g, hfold, ?_⟩
    rw [if_neg (by simpa using hstart)]
    rfl

theorem indexed_ofRules (h : ofRules id categories rules markups = .ok g) : g.Indexed := by
  obtain ⟨catIds, -, hfold, -⟩ := ofRules_eq_ok.mp h
  exact foldlM_ok_induction (fun _ _ _ hs hstep => indexed_addRule hs hstep) hfold
    (indexed_ofCategories id categories catIds markups)

/-- What a rule consumes goes with its type. -/
def Consumes (r : Rule) : Prop :=
  (r.ruleType = .lexical ∧ r.production = .terminal) ∨
    (∃ c, (r.ruleType = .top ∨ r.ruleType = .unary) ∧ r.production = .unary c) ∨
      ∃ left right, r.ruleType.isBinary = true ∧ r.production = .binary left right

theorem consumes_ofRules (h : ofRules id categories rules markups = .ok g) : ∀ r ∈ g.rules, Consumes r := by
  obtain ⟨catIds, -, hfold, -⟩ := ofRules_eq_ok.mp h
  refine foldlM_ok_induction (P := fun g => ∀ r ∈ g.rules, Consumes r) (fun g r g' hs hstep r' hr' => ?_) hfold
    (by simp [ofCategories])
  rw [addRule_rules hstep, Array.mem_push] at hr'
  rcases hr' with hold | rfl
  · exact hs r' hold
  · obtain ⟨_, ⟨ht, hp, _⟩ | ⟨c, ht, hp, _⟩ | ⟨c, ht, hp, _⟩ | ⟨l, r, ht, hp, _⟩⟩ := addRule_cases hstep
    · exact .inl ⟨ht, hp⟩
    · exact .inr (.inl ⟨c, .inl ht, hp⟩)
    · exact .inr (.inl ⟨c, .inr ht, hp⟩)
    · exact .inr (.inr ⟨l, r, ht, hp⟩)

theorem terminal_ofRules (h : ofRules id categories rules markups = .ok g) :
    ∀ r ∈ g.rules, r.ruleType = .lexical → r.production = .terminal := by
  intro r hr htype
  obtain ⟨-, hp⟩ | ⟨_, ht | ht, -⟩ | ⟨_, _, ht, -⟩ := consumes_ofRules h r hr
  · exact hp
  · cases htype.symm.trans ht
  · cases htype.symm.trans ht
  · simp [htype, RuleType.isBinary] at ht

end

end Grammar

end Categorial
