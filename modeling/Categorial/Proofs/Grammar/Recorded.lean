import Categorial.Proofs.Grammar.Coherent
set_option autoImplicit false

namespace Categorial

namespace GrammarBuilder

/-- One operation other than observing a tree, after which the builder is as the operation leaves it. -/
inductive Edit (b : GrammarBuilder) : GrammarBuilder → Prop
  | addCategory (s : String) : Edit b (after (addCategory s) b)
  | addLexical (s : String) : Edit b (after (addLexical s) b)
  | addStart (s : String) : Edit b (after (addStart s) b)
  | typeRaise (x t : String) : Edit b (after (typeRaise x t) b)
  | typeChange (source target : String) : Edit b (after (typeChange source target) b)
  | setMarkup (c : String) (m : Markup) : Edit b (after (setMarkup c m) b)
  | setCombinators (cs : List Combinator) : Edit b (b.setCombinators cs)
  | disable (c : Combinator) : Edit b (b.disable c)
  | setEnumerate (on : Bool) : Edit b (b.setEnumerate on)
  | setMinCount (n : Nat) : Edit b (b.setMinCount n)

theorem Edit.made {b b' : GrammarBuilder} (h : Edit b b') (hb : b.Made) : b'.Made := by
  cases h with
  | addCategory s => exact hb.addCategory s
  | addLexical s => exact hb.addLexical s
  | addStart s => exact hb.addStart s
  | typeRaise x t => exact hb.typeRaise x t
  | typeChange source target => exact hb.typeChange source target
  | setMarkup c m => exact hb.setMarkup c m
  | setCombinators cs => exact hb.setCombinators cs
  | disable c => exact hb.disable c
  | setEnumerate on => exact hb.setEnumerate on
  | setMinCount n => exact hb.setMinCount n

section

variable {β : Type} {b : GrammarBuilder}

theorem reaches_readCategory_bind {s : String} {f : Category → Building β} (hb : b.Coherent)
    (hf : ∀ c, c.Proper → b.Reaches [] (after (f c) b)) : b.Reaches [] (after (readCategory s >>= f) b) := by
  have hrun : (readCategory s).run b = (read s, b) := rfl
  rw [after, exceptT_run_bind, hrun]
  cases hread : read s with
  | error e => exact .refl hb
  | ok c => exact hf c ((ensures_readCategory s b hb.proper).2 c hread)

theorem reaches_intern_bind {c : Category} {f : CatId → Building β} (hb : b.Coherent) (hc : c.Proper)
    (hf : ∀ id b', b.Reaches [] b' → b'.categories[id]? = some c → b'.Reaches [] (after (f id) b')) :
    b.Reaches [] (after (liftM (intern c) >>= f) b) := by
  obtain ⟨hreaches, hid⟩ := reaches_intern hb hc
  rw [after, exceptT_run_bind, run_intern]
  exact hreaches.trans (hf _ _ hreaches hid)

theorem reaches_declared (hb : b.Coherent) {keys : List UnaryKey}
    (h : ∀ key ∈ keys, ∃ p, key.localTree.lookup b.categories = some p) :
    b.Reaches [] { b with declared := b.declared ++ keys } :=
  reaches_of_counts_eq
    { hb with declared := fun key hkey => (List.mem_append.mp hkey).elim (hb.declared key) (h key) } rfl

theorem reaches_addCategory_bind {s : String} {f : CatId → Building β} (hb : b.Coherent)
    (hf : ∀ id c b', b.Reaches [] b' → b'.categories[id]? = some c → b'.Reaches [] (after (f id) b')) :
    b.Reaches [] (after (addCategory s >>= f) b) := by
  rw [addCategory, bind_assoc]
  exact reaches_readCategory_bind hb fun c hc => reaches_intern_bind hb hc fun id b' => hf id c b'

theorem Edit.reaches {b' : GrammarBuilder} (h : Edit b b') (hb : b.Coherent) : b.Reaches [] b' := by
  cases h with
  | addCategory s => exact reaches_readCategory_bind hb fun c hc => (reaches_intern hb hc).1
  | addLexical s =>
    exact reaches_addCategory_bind hb fun id c b' hreaches hid => reaches_word hreaches.coherent hid Tally.adds_touch
  | addStart s =>
    exact reaches_addCategory_bind hb fun id c b' hreaches hid => reaches_root hreaches.coherent hid Tally.adds_touch
  | typeRaise x t =>
    refine reaches_readCategory_bind hb fun x hx => reaches_readCategory_bind hb fun t ht =>
      reaches_intern_bind hb hx fun child b₁ h₁ hchild =>
        reaches_intern_bind h₁.coherent (Category.proper_raise hx ht .forward) fun forward b₂ h₂ hforward =>
          reaches_intern_bind h₂.coherent (Category.proper_raise hx ht .backward) fun backward b₃ h₃ hbackward => ?_
    refine reaches_declared h₃.coherent ?_
    have hchild := h₃.keeps (h₂.keeps hchild)
    simp only [List.mem_cons, List.not_mem_nil, or_false, forall_eq_or_imp, forall_eq]
    exact ⟨⟨_, UnaryKey.lookup_localTree hchild (h₃.keeps hforward)⟩, _, UnaryKey.lookup_localTree hchild hbackward⟩
  | typeChange source target =>
    refine reaches_readCategory_bind hb fun source hsource => reaches_readCategory_bind hb fun target htarget =>
      reaches_intern_bind hb hsource fun child b₁ h₁ hchild =>
        reaches_intern_bind h₁.coherent htarget fun result b₂ h₂ hresult => ?_
    refine reaches_declared h₂.coherent ?_
    simp only [List.mem_singleton, forall_eq]
    exact ⟨_, UnaryKey.lookup_localTree (h₂.keeps hchild) hresult⟩
  | setMarkup c m =>
    exact reaches_readCategory_bind hb fun c hc => reaches_intern_bind hb hc fun id b' hreaches _ =>
      reaches_of_counts_eq { hreaches.coherent with } rfl
  | setCombinators | disable | setEnumerate | setMinCount => exact reaches_of_counts_eq { hb with } rfl

end

/-- A walk through the tree counts what it comes to, and succeeds if it comes to its end. -/
def Observes (t : BankTree) : Prop :=
  ∀ (b b' : GrammarBuilder) (r : Except Error CatId), b.Coherent → (observeNode t).run b = (r, b') →
    b.Reaches t.walk.1 b' ∧
      if t.walk.2 then ∃ id, r = .ok id ∧ b'.categories[id]? = some t.cat else ∃ e, r = .error e

/-- What comes after the walk is done if the walk has come to its end. -/
theorem Observes.bind {β : Type} {t : BankTree} (ht : Observes t) {f : CatId → Building β} {b b' : GrammarBuilder}
    {r : Except Error β} (hb : b.Coherent) (h : (observeNode t >>= f).run b = (r, b')) :
    (t.walk.2 = false ∧ b.Reaches t.walk.1 b' ∧ ∃ e, r = .error e) ∨
      t.walk.2 = true ∧ ∃ id b₁, b.Reaches t.walk.1 b₁ ∧ b₁.categories[id]? = some t.cat ∧
        (f id).run b₁ = (r, b') := by
  obtain ⟨_, hrun, rfl⟩ | ⟨id, b₁, hrun, hrest⟩ := exceptT_run_bind_cases h
  · obtain ⟨hreaches, hend⟩ := ht _ _ _ hb hrun
    cases hwhole : t.walk.2 with
    | false => exact .inl ⟨rfl, hreaches, _, rfl⟩
    | true =>
      obtain ⟨_, hr, -⟩ := (if_pos hwhole).mp hend
      cases hr
  · obtain ⟨hreaches, hend⟩ := ht _ _ _ hb hrun
    cases hwhole : t.walk.2 with
    | false =>
      obtain ⟨_, hr⟩ := (if_neg (by simp [hwhole])).mp hend
      cases hr
    | true =>
      obtain ⟨_, hr, hid⟩ := (if_pos hwhole).mp hend
      cases hr
      exact .inr ⟨rfl, id, b₁, hreaches, hid, hrest⟩

/-- Induction on the tree; the ids of the children are still theirs when the parent is counted. -/
theorem observes {t : BankTree} (ht : t.Proper) : Observes t := by
  induction ht with
  | @leaf c token hc =>
    intro b b' r hb h
    rw [observeNode, run_intern_bind] at h
    cases h
    obtain ⟨hintern, hid⟩ := reaches_intern hb hc
    exact ⟨hintern.trans (reaches_word hintern.coherent hid (Tally.adds_add 1)), _, rfl, hid⟩
  | @node c head children hc hproper ih =>
    intro b b' r hb h
    obtain ⟨hintern, hid⟩ := reaches_intern hb hc
    rcases children with _ | ⟨left, _ | ⟨right, _ | _⟩⟩
    · cases (run_intern_bind c _ b).symm.trans h
      exact ⟨hintern, _, rfl⟩
    · rw [observeNode, run_intern_bind] at h
      obtain ⟨hwalk, hreaches, herror⟩ | ⟨hwalk, idx, b₁, hchild, hidx, h⟩ :=
        (ih left (by simp)).bind hintern.coherent h
      · simp only [BankTree.walk_unary, hwalk]
        exact ⟨hintern.trans hreaches, herror⟩
      · simp only [BankTree.walk_unary, hwalk]
        cases h
        have hid := hchild.keeps hid
        exact ⟨(hintern.trans hchild).trans (reaches_unary hchild.coherent hidx hid), _, rfl, hid⟩
    · rw [observeNode, run_intern_bind] at h
      obtain ⟨hl, hreaches, herror⟩ | ⟨hl, idx, b₁, hleft, hidx, h⟩ :=
        (ih left (by simp)).bind hintern.coherent h
      · simp only [BankTree.walk_binary, hl]
        exact ⟨hintern.trans hreaches, herror⟩
      obtain ⟨hr, hreaches, herror⟩ | ⟨hr, idy, b₂, hright, hidy, h⟩ := (ih right (by simp)).bind hleft.coherent h
      · simp only [BankTree.walk_binary, hl, hr, if_true, Bool.false_eq_true, if_false, List.append_nil]
        exact ⟨(hintern.trans hleft).trans hreaches, herror⟩
      · simp only [BankTree.walk_binary, hl, hr]
        cases h
        have hid := hright.keeps (hleft.keeps hid)
        exact ⟨((hintern.trans hleft).trans hright).trans
          (reaches_binary hright.coherent (hright.keeps hidx) hidy hid), _, rfl, hid⟩
    · cases (run_intern_bind c _ b).symm.trans h
      exact ⟨hintern, _, rfl⟩

theorem reaches_observe {t : BankTree} (ht : t.Proper) {b b' : GrammarBuilder} {r : Except Error Unit}
    (hb : b.Coherent) (h : (observe t).run b = (r, b')) :
    b.Reaches t.counted b' ∧ (r = .ok () ↔ t.walk.2 = true) := by
  obtain ⟨hwalk, hreaches, e, rfl⟩ | ⟨hwalk, id, b₁, hreaches, hid, h⟩ := (observes ht).bind hb h
  · rw [BankTree.counted, hwalk]
    exact ⟨hreaches, by simp⟩
  · cases h
    rw [BankTree.counted, hwalk]
    exact ⟨hreaches.trans (reaches_root hreaches.coherent hid (Tally.adds_add 1)), by simp⟩

theorem Step.edit_or_observe {b b' : GrammarBuilder} (h : Step b b') :
    Edit b b' ∨ ∃ s t, BankTree.read s = .ok t ∧ b' = after (GrammarBuilder.observe t) b := by
  cases h with
  | addCategory s => exact .inl (.addCategory s)
  | addLexical s => exact .inl (.addLexical s)
  | addStart s => exact .inl (.addStart s)
  | typeRaise x t => exact .inl (.typeRaise x t)
  | typeChange source target => exact .inl (.typeChange source target)
  | setMarkup c m => exact .inl (.setMarkup c m)
  | observe hread => exact .inr ⟨_, _, hread, rfl⟩
  | setCombinators cs => exact .inl (.setCombinators cs)
  | disable c => exact .inl (.disable c)
  | setEnumerate on => exact .inl (.setEnumerate on)
  | setMinCount n => exact .inl (.setMinCount n)

theorem Made.coherent {b : GrammarBuilder} (hb : b.Made) : b.Coherent := by
  have hsteps : Steps .empty b := hb.steps
  clear hb
  induction hsteps with
  | refl => exact coherent_empty
  | tail _ hstep ih =>
    obtain hedit | ⟨s, t, hread, rfl⟩ := hstep.edit_or_observe
    · exact (hedit.reaches ih).coherent
    · exact (reaches_observe (BankTree.proper_of_read hread) ih rfl).1.coherent

/-- The builder has been given these trees, in this order, each with what came of it. Each of them was read from a
line. -/
inductive Fed : List (BankTree × Except Error Unit) → GrammarBuilder → Prop
  | empty : Fed [] .empty
  | edit {calls : List (BankTree × Except Error Unit)} {b b' : GrammarBuilder} : Fed calls b → Edit b b' → Fed calls b'
  | observe {calls : List (BankTree × Except Error Unit)} {b b' : GrammarBuilder} {s : List Char} {t : BankTree}
      {r : Except Error Unit} : Fed calls b → BankTree.read s = .ok t → (observe t).run b = (r, b') →
      Fed (calls ++ [(t, r)]) b'

/-- The builder has observed these trees, none of which it rejected. -/
abbrev Recorded (trees : List BankTree) (b : GrammarBuilder) : Prop := Fed (trees.map fun t => (t, .ok ())) b

section

variable {calls : List (BankTree × Except Error Unit)} {trees : List BankTree} {b : GrammarBuilder}

theorem Fed.made (h : Fed calls b) : b.Made := by
  induction h with
  | empty => exact .empty
  | edit _ hedit ih => exact hedit.made ih
  | observe _ hread hrun ih =>
    have hmade := ih.observe hread
    rwa [after, hrun] at hmade

theorem Fed.reaches (h : Fed calls b) : GrammarBuilder.empty.Reaches (calls.flatMap fun call => call.1.counted) b := by
  induction h with
  | empty => exact .refl coherent_empty
  | edit _ hedit ih => simpa using ih.trans (hedit.reaches ih.coherent)
  | observe _ hread hrun ih =>
    rw [List.flatMap_append, List.flatMap_singleton]
    exact ih.trans (reaches_observe (BankTree.proper_of_read hread) ih.coherent hrun).1

theorem Fed.tallied (h : Fed calls b) (p : LocalTree Category) :
    Tally.Wraps (b.tallied p) ((calls.flatMap fun call => call.1.counted).count p) := by
  have htallied := h.reaches.tallied p
  have hzero : GrammarBuilder.empty.tallied p = 0 := rfl
  rwa [hzero, Nat.zero_add] at htallied

theorem Fed.ok_iff (h : Fed calls b) {t : BankTree} {r : Except Error Unit} (hcall : (t, r) ∈ calls) :
    r = .ok () ↔ t.walk.2 = true := by
  induction h with
  | empty => cases hcall
  | edit _ _ ih => exact ih hcall
  | observe hfed hread hrun ih =>
    rcases List.mem_append.mp hcall with hold | hnew
    · exact ih hold
    · cases List.mem_singleton.mp hnew
      exact (reaches_observe (BankTree.proper_of_read hread) hfed.made.coherent hrun).2

theorem Fed.exists_read (h : Fed calls b) {t : BankTree} {r : Except Error Unit} (hcall : (t, r) ∈ calls) :
    ∃ s, BankTree.read s = .ok t := by
  induction h with
  | empty => cases hcall
  | edit _ _ ih => exact ih hcall
  | observe _ hread _ ih =>
    rcases List.mem_append.mp hcall with hold | hnew
    · exact ih hold
    · cases List.mem_singleton.mp hnew
      exact ⟨_, hread⟩

theorem Recorded.tallied_eq (h : Recorded trees b) (hnodes : (trees.flatMap BankTree.nodes).length < 2 ^ 32)
    (p : LocalTree Category) : b.tallied p = (trees.flatMap BankTree.localTrees).count p := by
  have hperm : (trees.flatMap BankTree.counted).Perm (trees.flatMap BankTree.localTrees) :=
    List.Perm.flatMap_left trees fun t ht =>
      BankTree.perm_counted ((Fed.ok_iff h (List.mem_map_of_mem ht)).mp rfl)
  have htallied := Fed.tallied h p
  rw [List.flatMap_map, hperm.count_eq] at htallied
  exact htallied.eq_of_lt (Nat.lt_of_le_of_lt (BankTree.count_flatMap_localTrees_le trees p) hnodes)

end

end GrammarBuilder

end Categorial
