import Categorial.Proofs.Grammar.Recorded
set_option autoImplicit false

namespace Categorial

namespace GrammarBuilder

theorem isRaised_of_unaryCombinator {c : Category}
    (h : unaryCombinator c = .fwdRaise ∨ unaryCombinator c = .bwdRaise) : c.isRaised = true := by
  unfold unaryCombinator at h
  split at h
  · split at h
    · assumption
    · simp at h
  · split at h
    · assumption
    · simp at h

theorem unaryCombinator_raise (x t : Category) :
    unaryCombinator (x.raise t .forward) = .fwdRaise ∧ unaryCombinator (x.raise t .backward) = .bwdRaise := by
  have hforward := Category.isRaised_raise x t .forward
  have hbackward := Category.isRaised_raise x t .backward
  rw [Category.raise] at hforward hbackward
  constructor
  · rw [Category.raise, unaryCombinator, if_pos hforward]
  · rw [Category.raise, unaryCombinator, if_pos hbackward]
    simp

/-- The step is named by its result, unless it changes one category into another by declaration. -/
def NamedIn (categories : Array Category) (key : UnaryKey) : Prop :=
  key.combinator = .typeChange ∨ ∃ c, categories[key.result]? = some c ∧ key.combinator = unaryCombinator c

/-- Every step that is declared is. -/
def Named (b : GrammarBuilder) : Prop := ∀ key ∈ b.declared, NamedIn b.categories key

/-- Categories keep their ids, and no step is declared. -/
structure Quiet (b b' : GrammarBuilder) : Prop where
  keeps : ∀ {id : CatId} {c : Category}, b.categories[id]? = some c → b'.categories[id]? = some c
  declared_eq : b'.declared = b.declared

section

variable {β : Type} {b b' b'' : GrammarBuilder} {c : Category} {id : CatId}

theorem Named.quiet (hn : b.Named) (h : Quiet b b') : b'.Named := fun key hkey =>
  (hn key (h.declared_eq ▸ hkey)).imp_right fun ⟨c, hc, hcombinator⟩ => ⟨c, h.keeps hc, hcombinator⟩

theorem Quiet.refl (b : GrammarBuilder) : Quiet b b := ⟨fun hid => hid, rfl⟩

theorem Quiet.trans (h : Quiet b b') (h' : Quiet b' b'') : Quiet b b'' where
  keeps := h'.keeps ∘ h.keeps
  declared_eq := h'.declared_eq.trans h.declared_eq

theorem quiet_intern (c : Category) (b : GrammarBuilder) : Quiet b (intern c b).2 := by
  rw [intern]
  cases b.catIds[c.text]? with
  | some _ => exact .refl b
  | none => exact ⟨getElem?_push_of_some, rfl⟩

theorem quiet_bind {γ : Type} {x : Building β} {f : β → Building γ} (hx : ∀ b, Quiet b (after x b))
    (hf : ∀ a b, Quiet b (after (f a) b)) (b : GrammarBuilder) : Quiet b (after (x >>= f) b) :=
  after_bind (R := Quiet) Quiet.trans hx hf b

theorem quiet_addCategory (s : String) : ∀ b, Quiet b (after (addCategory s) b) :=
  quiet_bind (fun b => .refl b) quiet_intern

theorem quiet_addLexical (s : String) : ∀ b, Quiet b (after (addLexical s) b) :=
  quiet_bind (quiet_addCategory s) fun _ _ => ⟨fun hid => hid, rfl⟩

theorem quiet_addStart (s : String) : ∀ b, Quiet b (after (addStart s) b) :=
  quiet_bind (quiet_addCategory s) fun _ _ => ⟨fun hid => hid, rfl⟩

theorem quiet_setMarkup (c : String) (m : Markup) : ∀ b, Quiet b (after (setMarkup c m) b) :=
  quiet_bind (fun b => .refl b) fun c => quiet_bind (quiet_intern c) fun _ _ => ⟨fun hid => hid, rfl⟩

theorem quiet_observeNode (t : BankTree) : ∀ b, Quiet b (after (observeNode t) b) := by
  induction t using BankTree.induction with
  | leaf c token =>
    rw [observeNode]
    exact quiet_bind (quiet_intern c) fun _ _ => ⟨fun hid => hid, rfl⟩
  | node c head children ih =>
    rcases children with _ | ⟨left, _ | ⟨right, _ | _⟩⟩
    · exact quiet_bind (quiet_intern c) fun _ b => .refl b
    · rw [observeNode]
      exact quiet_bind (quiet_intern c) fun _ => quiet_bind (ih left (by simp)) fun _ _ => ⟨fun hid => hid, rfl⟩
    · rw [observeNode]
      exact quiet_bind (quiet_intern c) fun _ => quiet_bind (ih left (by simp)) fun _ =>
        quiet_bind (ih right (by simp)) fun _ _ => ⟨fun hid => hid, rfl⟩
    · exact quiet_bind (quiet_intern c) fun _ b => .refl b

theorem quiet_observe (t : BankTree) : ∀ b, Quiet b (after (observe t) b) :=
  quiet_bind (quiet_observeNode t) fun _ _ => ⟨fun hid => hid, rfl⟩

theorem Named.declare (hn : b.Named) {keys : List UnaryKey} (h : ∀ key ∈ keys, NamedIn b.categories key) :
    Named { b with declared := b.declared ++ keys } := fun key hkey =>
  (List.mem_append.mp hkey).elim (hn key) (h key)

theorem named_readCategory_bind {s : String} {f : Category → Building β} (hb : b.Coherent) (hn : b.Named)
    (hf : ∀ c, c.Proper → (after (f c) b).Named) : (after (readCategory s >>= f) b).Named := by
  have hrun : (readCategory s).run b = (read s, b) := rfl
  rw [after, exceptT_run_bind, hrun]
  cases hread : read s with
  | error e => exact hn
  | ok c => exact hf c ((ensures_readCategory s b hb.proper).2 c hread)

theorem named_intern_bind {f : CatId → Building β} (hb : b.Coherent) (hn : b.Named) (hc : c.Proper)
    (hf : ∀ id b', b.Reaches [] b' → b'.Named → b'.categories[id]? = some c → (after (f id) b').Named) :
    (after (liftM (intern c) >>= f) b).Named := by
  obtain ⟨hreaches, hid⟩ := reaches_intern hb hc
  rw [after, exceptT_run_bind, run_intern]
  exact hf _ _ hreaches (hn.quiet (quiet_intern c b)) hid

theorem named_typeRaise (hb : b.Coherent) (hn : b.Named) (x t : String) : (after (typeRaise x t) b).Named := by
  refine named_readCategory_bind hb hn fun x hx => named_readCategory_bind hb hn fun t ht =>
    named_intern_bind hb hn hx fun child b₁ h₁ hn₁ _ =>
      named_intern_bind h₁.coherent hn₁ (Category.proper_raise hx ht .forward) fun forward b₂ h₂ hn₂ hforward =>
        named_intern_bind h₂.coherent hn₂ (Category.proper_raise hx ht .backward)
          fun backward b₃ h₃ hn₃ hbackward => ?_
  obtain ⟨hfwd, hbwd⟩ := unaryCombinator_raise x t
  refine hn₃.declare ?_
  simp only [List.mem_cons, List.not_mem_nil, or_false, forall_eq_or_imp, forall_eq]
  exact ⟨.inr ⟨_, h₃.keeps hforward, hfwd.symm⟩, .inr ⟨_, hbackward, hbwd.symm⟩⟩

theorem named_typeChange (hb : b.Coherent) (hn : b.Named) (source target : String) :
    (after (typeChange source target) b).Named := by
  refine named_readCategory_bind hb hn fun source hsource => named_readCategory_bind hb hn fun target htarget =>
    named_intern_bind hb hn hsource fun child b₁ h₁ hn₁ _ =>
      named_intern_bind h₁.coherent hn₁ htarget fun result b₂ _ hn₂ _ => ?_
  refine hn₂.declare ?_
  simp only [List.mem_singleton, forall_eq]
  exact .inl rfl

theorem Made.named (hb : Made b) : b.Named := by
  induction hb with
  | empty => exact nofun
  | addCategory s _ ih => exact ih.quiet (quiet_addCategory s _)
  | addLexical s _ ih => exact ih.quiet (quiet_addLexical s _)
  | addStart s _ ih => exact ih.quiet (quiet_addStart s _)
  | typeRaise x t hb ih => exact named_typeRaise hb.coherent ih x t
  | typeChange source target hb ih => exact named_typeChange hb.coherent ih source target
  | setMarkup c m _ ih => exact ih.quiet (quiet_setMarkup c m _)
  | observe _ _ ih => exact ih.quiet (quiet_observe _ _)
  | setCombinators | disable | setEnumerate | setMinCount => assumption

end

variable {b : GrammarBuilder} {gid : Nat} {g : Grammar}

theorem named_of_mem_unaryRules (hb : b.Made) {e : UnaryKey × Nat} (h : e ∈ b.unaryRules.entries) :
    NamedIn b.categories e.1 := by
  obtain hmem | ⟨e', he', hkey⟩ := key_of_mem_unaryRules h
  · exact hb.named _ hmem
  · exact hkey ▸ .inr (hb.coherent.named e' he')

/-- A unary rule either changes a category by declaration or is named by its result. -/
theorem combinator_of_unaryRule (hb : b.Made) (h : b.build gid = .ok g) {id : RuleId} {r : Rule}
    (hr : g.rule? id = some r) (htype : r.ruleType = .unary) :
    r.combinator = .typeChange ∨ ∃ c, g.category? r.result = some c ∧ r.combinator = unaryCombinator c := by
  obtain ⟨_, -, ⟨hcategories, -, -, -, -⟩, -⟩ := Grammar.contents_ofRules (ofRules_of_build h)
  obtain ⟨make, hmake, rfl⟩ := unnumbered_of_rule? h hr
  rw [Grammar.category?, hcategories]
  obtain ⟨_, _, -, rfl⟩ | ⟨key, _, -, rfl⟩ | ⟨key, _, hkey, rfl⟩ | ⟨_, _, -, rfl⟩ :=
    mem_unnumbered (List.mem_of_getElem? hmake)
  · cases htype
  · rcases b.ruleType_eq_or key with hbinary | hbinary <;> cases hbinary.symm.trans htype
  · exact named_of_mem_unaryRules hb hkey
  · cases htype

end GrammarBuilder

end Categorial
