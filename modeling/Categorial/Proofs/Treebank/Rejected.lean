import Categorial.Proofs.Treebank.Observed
set_option autoImplicit false

/-!
Trees that a builder rejects. What comes before the fault stays: categories on the way to it, and the steps of all
that is complete to the left of it. So a builder is as before only if the fault comes before the first word and
every category above it is known, and only then is the same codebook built as without the tree.
-/

namespace Categorial

namespace BankTree

/-- Every node has one child or two. -/
inductive Branching : BankTree → Prop
  | leaf {c : Category} {token : Token} : Branching (.leaf c token)
  | unary {c : Category} {head : Nat} {child : BankTree} : Branching child → Branching (.node c head [child])
  | binary {c : Category} {head : Nat} {left right : BankTree} : Branching left → Branching right →
      Branching (.node c head [left, right])

section

variable {c : Category} {head : Nat} {children : List BankTree}

theorem Branching.length (h : Branching (.node c head children)) : children.length = 1 ∨ children.length = 2 := by
  cases h with
  | unary => exact .inl rfl
  | binary => exact .inr rfl

theorem Branching.child (h : Branching (.node c head children)) : ∀ t ∈ children, t.Branching := by
  cases h with
  | unary hchild => exact List.forall_mem_singleton.mpr hchild
  | binary hleft hright => exact List.forall_mem_cons.mpr ⟨hleft, List.forall_mem_singleton.mpr hright⟩

end

end BankTree

namespace GrammarBuilder

/-- The way to the first fault: the category of each node on it is filed, and what a node has to the left of the
way is counted. -/
inductive Halts : BankTree → GrammarBuilder → GrammarBuilder → Prop
  | here {c : Category} {head : Nat} {children : List BankTree} {b : GrammarBuilder} : children.length ≠ 1 →
      children.length ≠ 2 → Halts (.node c head children) b (intern c b).2
  | first {c : Category} {head : Nat} {child : BankTree} {rest : List BankTree} {b b' : GrammarBuilder} :
      rest.length ≤ 1 → Halts child (intern c b).2 b' → Halts (.node c head (child :: rest)) b b'
  | second {c : Category} {head : Nat} {left right : BankTree} {b b₁ b' : GrammarBuilder} {id : CatId} :
      (observeNode left).run (intern c b).2 = (.ok id, b₁) → Halts right b₁ b' →
      Halts (.node c head [left, right]) b b'

theorem halts_of_observeNode {t : BankTree} {e : Error} : ∀ {b b' : GrammarBuilder},
    (observeNode t).run b = (.error e, b') → Halts t b b' := by
  induction t using BankTree.induction with
  | leaf c token =>
    intro b b' h
    rw [observeNode, run_intern_bind] at h
    cases h
  | node c head children ih =>
    intro b b' h
    rcases children with _ | ⟨left, _ | ⟨right, _ | _⟩⟩
    · cases (run_intern_bind c _ b).symm.trans h
      exact .here (by simp) (by simp)
    · rw [observeNode, run_intern_bind] at h
      rcases exceptT_run_bind_eq_error.mp h with h | ⟨_, _, -, h⟩
      · exact .first (by simp) (ih left (by simp) h)
      · cases h
    · rw [observeNode, run_intern_bind] at h
      rcases exceptT_run_bind_eq_error.mp h with h | ⟨_, _, hleft, h⟩
      · exact .first (by simp) (ih left (by simp) h)
      · rcases exceptT_run_bind_eq_error.mp h with h | ⟨_, _, -, h⟩
        · exact .second hleft (ih right (by simp) h)
        · cases h
    · cases (run_intern_bind c _ b).symm.trans h
      exact .here (by simp) (by simp)

theorem Halts.not_branching {t : BankTree} {b b' : GrammarBuilder} (h : Halts t b b') : ¬ t.Branching := by
  induction h with
  | here hone htwo => exact fun ht => ht.length.elim hone htwo
  | first _ _ ih => exact fun ht => ih (ht.child _ (by simp))
  | second _ _ ih => exact fun ht => ih (ht.child _ (by simp))

/-- A builder that has been given more words. Counters turn over, so what it holds of them is told up to whole turns. -/
structure Grows (n : Nat) (b b' : GrammarBuilder) : Prop where
  size : b.categories.size ≤ b'.categories.size
  words : Tally.Wraps (b'.lexical.weight fun _ => true) ((b.lexical.weight fun _ => true) + n)

namespace Grows

variable {n m : Nat} {b b' b'' : GrammarBuilder}

theorem trans (h : Grows n b b') (h' : Grows m b' b'') : Grows (n + m) b b'' where
  size := Nat.le_trans h.size h'.size
  words := by
    rw [← Nat.add_assoc]
    exact h'.words.trans (h.words.add (.refl m))

theorem eq_zero_of_weight_eq (h : Grows n b b') (hn : n < 2 ^ 32)
    (heq : (b'.lexical.weight fun _ => true) = b.lexical.weight fun _ => true) : n = 0 := by
  have hmod := h.words.mod_eq
  rw [heq] at hmod
  omega

end Grows

theorem grows_intern (c : Category) (b : GrammarBuilder) : Grows 0 b (intern c b).2 := by
  rw [intern]
  split
  · exact ⟨Nat.le_refl _, .refl _⟩
  · exact ⟨by simp, .refl _⟩

theorem Grows.of_intern {n : Nat} {c : Category} {b b' : GrammarBuilder} (h : Grows n (intern c b).2 b') :
    Grows n b b' := by
  have htrans := (grows_intern c b).trans h
  rwa [Nat.zero_add] at htrans

theorem grows_word (id : CatId) (b : GrammarBuilder) : Grows 1 b { b with lexical := b.lexical.add id 1 } :=
  ⟨Nat.le_refl _, Tally.weight_alter (Tally.adds_add 1) (fun _ => true) b.lexical id⟩

theorem branching_of_observeNode {t : BankTree} : ∀ {b b' : GrammarBuilder} {id : CatId},
    (observeNode t).run b = (.ok id, b') → t.Branching ∧ Grows t.tokens.length b b' := by
  induction t using BankTree.induction with
  | leaf c token =>
    intro b b' id h
    rw [observeNode, run_intern_bind] at h
    cases h
    exact ⟨.leaf, (grows_word _ _).of_intern⟩
  | node c head children ih =>
    intro b b' id h
    rcases children with _ | ⟨left, _ | ⟨right, _ | _⟩⟩
    · cases (run_intern_bind c _ b).symm.trans h
    · rw [observeNode, run_intern_bind] at h
      obtain ⟨_, b₁, hrun, h⟩ := exceptT_run_bind_eq_ok.mp h
      obtain ⟨hchild, hgrows⟩ := ih left (by simp) hrun
      cases h
      simp only [BankTree.tokens, BankTree.tokensOf, List.append_nil]
      exact ⟨.unary hchild, .of_intern ⟨hgrows.size, hgrows.words⟩⟩
    · rw [observeNode, run_intern_bind] at h
      obtain ⟨_, b₁, hrun, h⟩ := exceptT_run_bind_eq_ok.mp h
      obtain ⟨hleft, hfirst⟩ := ih left (by simp) hrun
      obtain ⟨_, b₂, hrun, h⟩ := exceptT_run_bind_eq_ok.mp h
      obtain ⟨hright, hsecond⟩ := ih right (by simp) hrun
      have hboth := hfirst.trans hsecond
      cases h
      simp only [BankTree.tokens, BankTree.tokensOf, List.append_nil, List.length_append]
      exact ⟨.binary hleft hright, .of_intern ⟨hboth.size, hboth.words⟩⟩
    · cases (run_intern_bind c _ b).symm.trans h

theorem tokens_length_pos {t : BankTree} (h : t.Branching) : 0 < t.tokens.length := by
  induction h with
  | leaf => exact Nat.one_pos
  | unary _ ih => simpa [BankTree.tokens, BankTree.tokensOf] using ih
  | binary _ _ ihl _ =>
    simp only [BankTree.tokens, BankTree.tokensOf, List.length_append]
    omega

theorem exists_error_iff (t : BankTree) (b : GrammarBuilder) :
    (∃ e b', (observeNode t).run b = (.error e, b')) ↔ ¬ t.Branching := by
  constructor
  · rintro ⟨e, b', h⟩
    exact (halts_of_observeNode h).not_branching
  · intro ht
    obtain ⟨⟨r, b'⟩, hrun⟩ : ∃ r, (observeNode t).run b = r := ⟨_, rfl⟩
    cases r with
    | error e => exact ⟨e, b', hrun⟩
    | ok id => exact absurd (branching_of_observeNode hrun).1 ht

/-- A node that is no step, before any word, under categories that are all filed. -/
inductive RefusesAtOnce (b : GrammarBuilder) : BankTree → Prop
  | here {c : Category} {head : Nat} {children : List BankTree} : b.catIds[c.text]?.isSome = true →
      children.length ≠ 1 → children.length ≠ 2 → RefusesAtOnce b (.node c head children)
  | under {c : Category} {head : Nat} {child : BankTree} {rest : List BankTree} :
      b.catIds[c.text]?.isSome = true → rest.length ≤ 1 → RefusesAtOnce b child →
      RefusesAtOnce b (.node c head (child :: rest))

theorem RefusesAtOnce.not_branching {b : GrammarBuilder} {t : BankTree} (h : b.RefusesAtOnce t) :
    ¬ t.Branching := by
  induction h with
  | here _ hone htwo => exact fun ht => ht.length.elim hone htwo
  | under _ _ _ ih => exact fun ht => ih (ht.child _ (by simp))

theorem intern_of_isSome {b : GrammarBuilder} {c : Category} (h : b.catIds[c.text]?.isSome = true) :
    (intern c b).2 = b := by
  obtain ⟨id, hid⟩ := Option.isSome_iff_exists.mp h
  rw [intern, hid]

theorem Halts.eq_of_refusesAtOnce {t : BankTree} {b b' : GrammarBuilder} (h : Halts t b b')
    (ht : b.RefusesAtOnce t) : b' = b := by
  induction h with
  | here hone htwo =>
    cases ht with
    | here hknown => exact intern_of_isSome hknown
    | under _ hrest =>
      simp only [List.length_cons] at hone htwo
      omega
  | first hrest _ ih =>
    cases ht with
    | here _ hone htwo =>
      simp only [List.length_cons] at hone htwo
      omega
    | under hknown _ hchild =>
      rw [intern_of_isSome hknown] at ih
      exact ih hchild
  | second hleft _ _ =>
    cases ht with
    | here _ _ htwo => exact absurd rfl htwo
    | under _ _ hchild => exact absurd (branching_of_observeNode hleft).1 hchild.not_branching

theorem size_lt_intern {b : GrammarBuilder} {c : Category} (hnew : ¬ b.catIds[c.text]?.isSome = true) :
    b.categories.size < (intern c b).2.categories.size := by
  rw [intern, Option.not_isSome_iff_eq_none.mp hnew]
  simp

theorem Halts.grows {t : BankTree} {b b' : GrammarBuilder} (h : Halts t b b') : ∃ n ≤ t.tokens.length,
    Grows n b b' ∧ (¬ b.RefusesAtOnce t → b.categories.size < b'.categories.size ∨ 0 < n) := by
  induction h with
  | @here c _ _ b hone htwo =>
    exact ⟨0, Nat.zero_le _, grows_intern c b, fun hnot =>
      .inl (size_lt_intern fun hknown => hnot (.here hknown hone htwo))⟩
  | @first c _ child rest b _ hrest _ ih =>
    obtain ⟨n, hle, hgrows, hstays⟩ := ih
    refine ⟨n, ?_, hgrows.of_intern, fun hnot => ?_⟩
    · simp only [BankTree.tokens, BankTree.tokensOf, List.length_append]
      omega
    · by_cases hknown : b.catIds[c.text]?.isSome = true
      · rw [intern_of_isSome hknown] at hstays
        exact hstays fun hunder => hnot (.under hknown hrest hunder)
      · exact .inl (Nat.lt_of_lt_of_le (size_lt_intern hknown) hgrows.size)
  | @second c _ left right b _ _ _ hrun _ ih =>
    obtain ⟨hleft, hfirst⟩ := branching_of_observeNode hrun
    obtain ⟨n, hle, hgrows, -⟩ := ih
    have hpos := tokens_length_pos hleft
    refine ⟨left.tokens.length + n, ?_, (hfirst.trans hgrows).of_intern, fun _ => .inr (by omega)⟩
    simp only [BankTree.tokens, BankTree.tokensOf, List.append_nil, List.length_append]
    omega

/-- A builder that holds no more categories and no more words refused the tree at once. -/
theorem Halts.refusesAtOnce {t : BankTree} {b b' : GrammarBuilder} (h : Halts t b b') (ht : t.tokens.length < 2 ^ 32)
    (hsize : b'.categories.size = b.categories.size)
    (hwords : (b'.lexical.weight fun _ => true) = b.lexical.weight fun _ => true) : b.RefusesAtOnce t := by
  by_contra hnot
  obtain ⟨n, hle, hgrows, hstays⟩ := h.grows
  have hzero := hgrows.eq_zero_of_weight_eq (Nat.lt_of_le_of_lt hle ht) hwords
  have hmore := hstays hnot
  omega

def untouched (b : GrammarBuilder) : GrammarBuilder :=
  { b with categories := #[], catIds := ∅, lexical := .empty, seenUnary := .empty, seenBinary := .empty }

theorem untouched_intern (c : Category) (b : GrammarBuilder) : (intern c b).2.untouched = b.untouched := by
  rw [intern]
  split <;> rfl

theorem untouched_bind {β γ : Type} {x : Building β} {f : β → Building γ}
    (hx : ∀ b : GrammarBuilder, (after x b).untouched = b.untouched)
    (hf : ∀ a (b : GrammarBuilder), (after (f a) b).untouched = b.untouched) (b : GrammarBuilder) :
    (after (x >>= f) b).untouched = b.untouched :=
  after_bind (R := fun b b' => b'.untouched = b.untouched) (fun h h' => h'.trans h) hx hf b

theorem untouched_after_observeNode (t : BankTree) :
    ∀ b : GrammarBuilder, (after (observeNode t) b).untouched = b.untouched := by
  induction t using BankTree.induction with
  | leaf c token =>
    rw [observeNode]
    exact untouched_intern c
  | node c head children ih =>
    rcases children with _ | ⟨left, _ | ⟨right, _ | _⟩⟩
    · exact untouched_intern c
    · rw [observeNode]
      exact untouched_bind (untouched_intern c) fun _ => untouched_bind (ih left (by simp)) fun _ _ => rfl
    · rw [observeNode]
      exact untouched_bind (untouched_intern c) fun _ => untouched_bind (ih left (by simp)) fun _ =>
        untouched_bind (ih right (by simp)) fun _ _ => rfl
    · exact untouched_intern c

end GrammarBuilder

def Rule.words (r : Rule) : Nat :=
  match r.production with
  | .terminal => r.count
  | .unary _ => 0
  | .binary _ _ => 0

namespace GrammarBuilder

theorem words_unnumbered (b : GrammarBuilder) :
    (b.unnumbered.map fun make => (make 0).words).sum = b.lexical.weight fun _ => true := by
  have hzero {κ : Type} (entries : List κ) : (entries.map fun _ => 0).sum = 0 := by simp
  simp only [unnumbered, List.map_append, List.map_map, List.sum_append, Function.comp_def, Rule.words, hzero,
    Nat.add_zero]
  rfl

theorem words_of_build {b : GrammarBuilder} {gid : Nat} {g : Grammar} (h : b.build gid = .ok g) :
    g.size = b.categories.size ∧ (g.rules.toList.map Rule.words).sum = b.lexical.weight fun _ => true := by
  obtain ⟨_, _, hcontents, hrules⟩ := Grammar.contents_ofRules (ofRules_of_build h)
  rw [hrules, map_rules (fun _ _ => rfl), words_unnumbered, Grammar.size, hcontents.categories_eq]
  exact ⟨rfl, rfl⟩

theorem observe_eq_error {t : BankTree} {e : Error} {b b' : GrammarBuilder} :
    (observe t).run b = (.error e, b') ↔ (observeNode t).run b = (.error e, b') := by
  rw [observe, exceptT_run_bind_eq_error]
  constructor
  · rintro (h | ⟨_, _, -, h⟩)
    · exact h
    · cases h
  · exact .inl

/-- A tree is rejected for a node that has neither one child nor two. The builder is then as before, and builds the
same codebook, if this node comes before any word and the categories down to it are filed. It is so in no other case,
if the tree is too short for a counter to turn over. -/
theorem observe_rejected (t : BankTree) (b : GrammarBuilder) :
    ((∃ e b', (observe t).run b = (.error e, b')) ↔ ¬ t.Branching) ∧
      ∀ e b', (observe t).run b = (.error e, b') →
        b'.untouched = b.untouched ∧ (b.RefusesAtOnce t → b' = b) ∧
          (t.tokens.length < 2 ^ 32 → (b' = b ↔ b.RefusesAtOnce t) ∧
            ∀ gid g, b.build gid = .ok g → (b'.build gid = .ok g ↔ b.RefusesAtOnce t)) := by
  simp only [observe_eq_error]
  refine ⟨exists_error_iff t b, fun e b' h => ?_⟩
  have hhalts := halts_of_observeNode h
  have huntouched : b'.untouched = b.untouched := by
    have hafter := untouched_after_observeNode t b
    rwa [after, h] at hafter
  refine ⟨huntouched, hhalts.eq_of_refusesAtOnce, fun ht => ⟨⟨?_, hhalts.eq_of_refusesAtOnce⟩, fun gid g hg =>
    ⟨fun hg' => ?_, fun hrefuses => by rw [hhalts.eq_of_refusesAtOnce hrefuses, hg]⟩⟩⟩
  · rintro rfl
    exact hhalts.refusesAtOnce ht rfl rfl
  · obtain ⟨hsize, hwords⟩ := words_of_build hg
    obtain ⟨hsize', hwords'⟩ := words_of_build hg'
    exact hhalts.refusesAtOnce ht (hsize'.symm.trans hsize) (hwords'.symm.trans hwords)

end GrammarBuilder

namespace Observed

open GrammarBuilder

/-- A subject, which is counted, and then a verb phrase of three words, which is no step. -/
def threefold : BankTree :=
  .node clause 1 [.leaf np ⟨"dogs", "NNS", none⟩,
    .node verb 0 [.leaf np ⟨"a", "N", none⟩, .leaf np ⟨"b", "N", none⟩, .leaf np ⟨"c", "N", none⟩]]

def miscounted : GrammarBuilder := { builder with lexical := ⟨[(1, 2), (2, 1)]⟩ }

theorem run_observe_threefold :
    (observe threefold).run builder = (.error (.malformed (.childrenFound verb.text 3)), miscounted) := by
  have hclause : builder.catIds[clause.text]? = some 0 := by
    simp only [builder, unmarked, catIds, Std.HashMap.getElem?_insert]
    decide
  have hnp : builder.catIds[np.text]? = some 1 := by
    simp only [builder, unmarked, catIds, Std.HashMap.getElem?_insert]
    decide
  have hverb : miscounted.catIds[verb.text]? = some 2 := Std.HashMap.getElem?_insert_self
  have hdogs : (observeNode (.leaf np ⟨"dogs", "NNS", none⟩)).run builder = (.ok 1, miscounted) := by
    rw [observeNode, exceptT_run_bind, run_intern_known hnp]
    rfl
  rw [observe_eq_error, threefold, observeNode, exceptT_run_bind, run_intern_known hclause]
  simp only [exceptT_run_bind, hdogs]
  rw [observeNode, exceptT_run_bind, run_intern_known hverb]
  · rfl
  · simp
  · simp

theorem rules_miscounted : miscounted.rules =
    [⟨0, .lexical, .lexical, 1, .terminal, 2⟩, ⟨1, .lexical, .lexical, 2, .terminal, 1⟩,
      ⟨2, .rightBinary, .bwdApp, 0, .binary 1 2, 1⟩, ⟨3, .top, .top, 0, .unary 0, 1⟩] := by
  rfl

theorem observe_rejected_threefold : ∃ e g g', (observe threefold).run builder = (.error e, miscounted) ∧
    miscounted ≠ builder ∧ builder.build 0 = .ok g ∧ miscounted.build 0 = .ok g' ∧ g' ≠ g := by
  obtain ⟨g, hg, -⟩ := exists_build
  obtain ⟨g', hg'⟩ : ∃ g', Grammar.ofRules 0 miscounted.categories miscounted.rules miscounted.codebookMarkups =
      .ok g' := by
    rw [rules_miscounted]
    exact Grammar.exists_ofRules 0 _ (by decide) rfl (by decide) (by decide)
  have hbuild' : miscounted.build 0 = .ok g' := by
    rw [build, hg']
    rfl
  have hword : ¬ builder.RefusesAtOnce threefold := by
    intro h
    cases h with
    | here _ _ htwo => exact htwo rfl
    | under _ _ hleaf => cases hleaf
  obtain ⟨-, -, hshort⟩ := (observe_rejected threefold builder).2 _ _ run_observe_threefold
  obtain ⟨hsame, hbuild⟩ := hshort (by decide)
  refine ⟨_, g, g', run_observe_threefold, fun h => hword (hsame.mp h), hg, hbuild', ?_⟩
  rintro rfl
  exact hword ((hbuild 0 g' hg).mp hbuild')

end Observed

end Categorial
