import Categorial.Proofs.Coarse.Exact
import Categorial.Proofs.Coarse.Packed
set_option autoImplicit false

namespace Categorial

/-- Every step of the derivation is a rule of the grammar on the categories of the children, over the span
that they cover, and every word has a category that it may have. -/
inductive Grammar.Licenses (g : Grammar) (allowed : Nat → CatId → Prop) : Derivation → Prop where
  | leaf {i : Nat} {cat : CatId} {rule : RuleId} : allowed i cat → g.lexicalRule? cat = some rule →
      Licenses g allowed (.leaf ⟨cat, rule⟩ (.word i))
  | unary {t : Derivation} {cat : CatId} {rule : RuleId} : Licenses g allowed t →
      g.UnaryRule rule t.step.cat cat → Licenses g allowed (.branch ⟨cat, rule⟩ t.span [t])
  | binary {left right : Derivation} {cat : CatId} {rule : RuleId} : Licenses g allowed left →
      Licenses g allowed right → left.span.stop = right.span.start →
      g.BinaryRule rule left.step.cat right.step.cat cat →
      Licenses g allowed (.branch ⟨cat, rule⟩ (left.span.join right.span) [left, right])

namespace Derivation

@[simp] theorem span_branch (step : Step) (span : Span) (children : List Derivation) :
    (branch step span children).span = span := rfl

@[simp] theorem step_branch (step : Step) (span : Span) (children : List Derivation) :
    (branch step span children).step = step := rfl

/-- A phrase of the tree, or the tree itself. -/
inductive Part (s : Derivation) : Derivation → Prop where
  | whole : Part s s
  | child {t : Derivation} {step : Step} {span : Span} {children : List Derivation} : t ∈ children → Part s t →
      Part s (.branch step span children)

theorem mem_leavesOf {children : List Derivation} {leaf : Step × Span} :
    leaf ∈ leavesOf children ↔ ∃ t ∈ children, leaf ∈ t.leaves := by
  induction children with
  | nil => simp [leavesOf]
  | cons t children ih => simp [leavesOf, ih]

def HasWord (t : Derivation) (position : Nat) : Prop := ∃ leaf ∈ t.leaves, leaf.2.start = position

theorem HasWord.branch {t : Derivation} {step : Step} {span : Span} {children : List Derivation} (ht : t ∈ children)
    {position : Nat} (h : t.HasWord position) : (branch step span children).HasWord position := by
  obtain ⟨leaf, hleaf, hstart⟩ := h
  exact ⟨leaf, mem_leavesOf.mpr ⟨t, ht, hleaf⟩, hstart⟩

/-- No unary step stands directly on another. -/
inductive UnaryOnce : Derivation → Prop where
  | leaf (step : Step) (span : Span) : UnaryOnce (.leaf step span)
  | branch {step : Step} {span : Span} {children : List Derivation} :
      (∀ t ∈ children, UnaryOnce t) → (∀ t, children = [t] → t.level = .base) →
      UnaryOnce (.branch step span children)

end Derivation

def Supertags.Offers {α : Type} [Scalar α] (tags : Supertags α) (beta : α) (i : Nat) (cat : CatId) :
    Prop :=
  ∃ tag ∈ tags.within i beta, tag.cat = cat

/-- A derivation of a whole sentence from its tags: licensed, with the words in order as its leaves and a
start category at the root. -/
structure Analysis {α : Type} [Scalar α] (g : Grammar) (s : Sentence) (tags : Supertags α) (beta : α)
    (t : Derivation) : Prop where
  licensed : g.Licenses (tags.Offers beta) t
  unaryOnce : t.UnaryOnce
  leaves_eq : t.leaves.map Prod.snd = (List.range s.length).map Span.word
  span_eq : t.span = ⟨0, s.length⟩
  start : g.isStart t.step.cat = true

namespace Grammar.Licenses

variable {g : Grammar} {allowed : Nat → CatId → Prop} {t : Derivation}

theorem start_lt_stop (h : g.Licenses allowed t) : t.span.start < t.span.stop := by
  induction h with
  | leaf => exact Nat.lt_succ_self _
  | unary _ _ ih => exact ih
  | binary _ _ hmeet _ ihl ihr =>
    simp only [Derivation.span_branch, Span.join]
    omega

theorem leaves_eq (h : g.Licenses allowed t) :
    t.leaves.map Prod.snd = (List.range' t.span.start t.span.length).map Span.word := by
  induction h with
  | leaf => simp [Derivation.leaves, Derivation.span, Span.length, Span.word]
  | unary _ _ ih => simpa [Derivation.leaves, Derivation.leavesOf] using ih
  | @binary left right _ _ hl hr hmeet _ ihl ihr =>
    have hleft := hl.start_lt_stop
    have hright := hr.start_lt_stop
    have hlen : (left.span.join right.span).length = left.span.length + right.span.length := by
      simp only [Span.length, Span.join]
      omega
    have hnext : right.span.start = left.span.start + left.span.length := by
      simp only [Span.length]
      omega
    simp only [Derivation.leaves, Derivation.leavesOf, Derivation.span_branch, List.append_nil,
      List.map_append, ihl, ihr, hlen, hnext]
    rw [← List.map_append, List.range'_append_1]
    rfl

theorem mono {allowed' : Nat → CatId → Prop} (h : g.Licenses allowed t)
    (hmem : ∀ leaf ∈ t.leaves, allowed leaf.2.start leaf.1.cat → allowed' leaf.2.start leaf.1.cat) :
    g.Licenses allowed' t := by
  induction h with
  | @leaf i cat rule hallowed hrule =>
    exact .leaf (hmem (⟨cat, rule⟩, .word i) (by simp [Derivation.leaves]) hallowed) hrule
  | unary _ hrule ih =>
    refine .unary (ih fun leaf hleaf => hmem leaf ?_) hrule
    simpa [Derivation.leaves, Derivation.leavesOf] using hleaf
  | binary _ _ hmeet hrule ihl ihr =>
    refine .binary (ihl fun leaf hleaf => hmem leaf ?_) (ihr fun leaf hleaf => hmem leaf ?_) hmeet hrule
    · simp [Derivation.leaves, Derivation.leavesOf, hleaf]
    · simp [Derivation.leaves, Derivation.leavesOf, hleaf]

end Grammar.Licenses

namespace CoarseChart

variable {α : Type} [Scalar α] {c : CoarseChart α} {tags : Supertags α}

namespace Saturated

theorem licensed_of_packs (hc : c.Saturated tags) (hg : c.grammar.Indexed) {id : CoarseId}
    {t : Derivation} (h : c.Packs id t) : ∀ {span : Span} {item : CoarseItem},
    span.Within c.sentence.length → (id, item) ∈ c.itemsOver span →
    c.grammar.Licenses (tags.Offers c.beta) t ∧ t.UnaryOnce ∧ t.span = span ∧ t.step.cat = item.cat ∧
      t.level = item.level := by
  induction h with
  | @lexical id x rule word hget hstep =>
    intro span item hspan hmem
    cases hget.symm.trans (item?_of_mem hmem)
    have hlast := (hc.mem_steps hg hspan hmem).mp hstep
    rw [hc.span_eq hspan hmem]
    generalize x.cat = cat, x.level = level at hlast ⊢
    cases hlast with
    | lexical htag hrule => exact ⟨.leaf ⟨_, htag, rfl⟩ hrule, .leaf _ _, rfl, rfl, rfl⟩
  | @unary id child x rule t hget hstep ht ih =>
    intro span item hspan hmem
    cases hget.symm.trans (item?_of_mem hmem)
    have hlast := (hc.mem_steps hg hspan hmem).mp hstep
    rw [hc.span_eq hspan hmem]
    generalize x.cat = cat, x.level = level at hlast ⊢
    cases hlast with
    | unary hchild hbase hrule =>
      obtain ⟨hlic, honce, rfl, hcat, hlevel⟩ := ih hspan hchild
      rw [← hcat] at hrule
      refine ⟨.unary hlic hrule, .branch ?_ ?_, rfl, rfl, rfl⟩
      · exact fun s hs => List.mem_singleton.mp hs ▸ honce
      · exact fun s hs => (List.cons.inj hs).1 ▸ hlevel.trans hbase
  | @binary id l r x rule left right hget hstep hl hr ihl ihr =>
    intro span item hspan hmem
    cases hget.symm.trans (item?_of_mem hmem)
    have hlast := (hc.mem_steps hg hspan hmem).mp hstep
    rw [hc.span_eq hspan hmem]
    generalize x.cat = cat, x.level = level at hlast ⊢
    cases hlast with
    | @binary _ start mid stop _ _ _ _ _ hlt hlt' hleft hright hrule =>
      obtain ⟨_, hstop⟩ := hspan
      simp only at hstop
      obtain ⟨hlicl, honcel, hspanl, hcatl, _⟩ := ihl ⟨hlt, by simp only; omega⟩ hleft
      obtain ⟨hlicr, honcer, hspanr, hcatr, _⟩ := ihr ⟨hlt', hstop⟩ hright
      rw [← hcatl, ← hcatr] at hrule
      have hjoin : (⟨start, stop⟩ : Span) = left.span.join right.span := by rw [hspanl, hspanr]; rfl
      rw [hjoin]
      refine ⟨.binary hlicl hlicr (by rw [hspanl, hspanr]) hrule, .branch ?_ ?_, rfl, rfl, rfl⟩
      · simp [honcel, honcer]
      · simp

theorem packs_of_licensed (hc : c.Saturated tags) (hg : c.grammar.Indexed) {t : Derivation}
    (h : c.grammar.Licenses (tags.Offers c.beta) t) : t.UnaryOnce → t.span.Within c.sentence.length →
    ∃ id item, (id, item) ∈ c.itemsOver t.span ∧ item.cat = t.step.cat ∧ item.level = t.level ∧
      c.Packs id t := by
  induction h with
  | @leaf i cat rule hallowed hrule =>
    intro _ hspan
    obtain ⟨tag, htag, rfl⟩ := hallowed
    have hlast := LastStep.lexical htag hrule
    obtain ⟨id, item, hmem, hcat, hlevel⟩ := (hc.holds_iff hg hspan).mpr ⟨_, hlast⟩
    have hstep := (hc.mem_steps hg hspan hmem).mpr (hcat ▸ hlevel ▸ hlast)
    have hpacks := Packs.lexical (item?_of_mem hmem) hstep
    rw [hcat, hc.span_eq hspan hmem] at hpacks
    exact ⟨id, item, hmem, hcat, hlevel, hpacks⟩
  | @unary t cat rule _ hrule ih =>
    intro honce hspan
    obtain _ | ⟨honce, hbase⟩ := honce
    obtain ⟨child, x, hchild, hxcat, hxlevel, hx⟩ := ih (honce t (by simp)) hspan
    have hlast : c.LastStep tags t.span cat .unary (.unary rule child) :=
      .unary hchild (hxlevel.trans (hbase t rfl)) (hxcat ▸ hrule)
    obtain ⟨id, item, hmem, hcat, hlevel⟩ := (hc.holds_iff hg hspan).mpr ⟨_, hlast⟩
    have hstep := (hc.mem_steps hg hspan hmem).mpr (hcat ▸ hlevel ▸ hlast)
    have hpacks := Packs.unary (item?_of_mem hmem) hstep hx
    rw [hcat, hc.span_eq hspan hmem] at hpacks
    exact ⟨id, item, hmem, hcat, hlevel, hpacks⟩
  | @binary left right cat rule hl hr hmeet hrule ihl ihr =>
    intro honce hspan
    obtain _ | ⟨honce, _⟩ := honce
    have hlt := hl.start_lt_stop
    have hlt' := hr.start_lt_stop
    obtain ⟨_, hstop⟩ := hspan
    simp only [Derivation.span_branch, Span.join] at hstop
    obtain ⟨l, x, hmeml, hxcat, _, hx⟩ := ihl (honce left (by simp)) ⟨hlt, by omega⟩
    obtain ⟨r, y, hmemr, hycat, _, hy⟩ := ihr (honce right (by simp)) ⟨hlt', hstop⟩
    have hspan : (left.span.join right.span).Within c.sentence.length :=
      ⟨by simp only [Span.join]; omega, hstop⟩
    have hlast : c.LastStep tags (left.span.join right.span) cat .base (.binary rule l r) := by
      have hsplit : right.span = ⟨left.span.stop, right.span.stop⟩ := by rw [hmeet]
      rw [hsplit] at hmemr
      exact .binary hlt (by omega) hmeml hmemr (hxcat ▸ hycat ▸ hrule)
    obtain ⟨id, item, hmem, hcat, hlevel⟩ := (hc.holds_iff hg hspan).mpr ⟨_, hlast⟩
    have hstep := (hc.mem_steps hg hspan hmem).mpr (hcat ▸ hlevel ▸ hlast)
    have hpacks := Packs.binary (item?_of_mem hmem) hstep hx hy
    rw [hcat, hc.span_eq hspan hmem] at hpacks
    exact ⟨id, item, hmem, hcat, hlevel, hpacks⟩

theorem packed_iff (hc : c.Saturated tags) (hg : c.grammar.Indexed)
    (hwhole : c.wholeSpan.Within c.sentence.length) {t : Derivation} :
    c.Packed t ↔ Analysis c.grammar c.sentence tags c.beta t := by
  constructor
  · rintro ⟨id, item, hmem, hstart, hpacks⟩
    obtain ⟨hlic, honce, hspan, hcat, _⟩ := hc.licensed_of_packs hg hpacks hwhole hmem
    refine ⟨hlic, honce, ?_, hspan, hcat ▸ hstart⟩
    rw [hlic.leaves_eq, hspan, List.range_eq_range']
    rfl
  · intro h
    have hspan : t.span = c.wholeSpan := h.span_eq
    obtain ⟨id, item, hmem, hcat, _, hpacks⟩ :=
      hc.packs_of_licensed hg h.licensed h.unaryOnce (hspan ▸ hwhole)
    exact ⟨id, item, hspan ▸ hmem, hcat ▸ h.start, hpacks⟩

end Saturated

theorem build_of_analysis {g : Grammar} {s : Sentence} {beta : α} {t : Derivation} (hg : g.Indexed)
    (h : Analysis g s tags beta t) : ∃ c : CoarseChart α, c.Packed t ∧ ∀ maxItems,
      build g s tags beta maxItems = if c.items.size ≤ maxItems then .ok c else .error .abandoned := by
  obtain ⟨c, hroom⟩ := exists_filled_if_room g s tags beta
  have hfilled : filled g s tags beta c.items.size = .ok c := by rw [hroom, if_pos (Nat.le_refl _)]
  have hsat := saturated_filled hfilled
  obtain ⟨rfl, rfl, rfl, _⟩ := (itemsOver_filled hfilled).1
  have hwhole : c.wholeSpan.Within c.sentence.length := by
    have hlt := h.licensed.start_lt_stop
    rw [h.span_eq] at hlt
    exact ⟨hlt, Nat.le_refl _⟩
  have hpacked := (hsat.packed_iff hg hwhole).mpr h
  have hspans : c.spans = true := by
    obtain ⟨id, item, hmem, hstart, _⟩ := hpacked
    exact spans_iff.mpr ⟨item.cat, item.level, hstart, id, item, hmem, rfl, rfl⟩
  refine ⟨c, hpacked, fun maxItems => ?_⟩
  rw [build, hroom]
  split
  · simp [bind, Except.bind, hspans]
  · rfl

end CoarseChart

namespace Sample

open CoarseChart

def goldTree : Derivation := .branch ⟨2, 2⟩ ⟨0, 2⟩ [.leaf ⟨0, 0⟩ ⟨0, 1⟩, .leaf ⟨1, 1⟩ ⟨1, 2⟩]

theorem packed_goldTree {g : Grammar} (hg : g.Indexed) (hrules : g.rules = rules.toArray) :
    (chart g).Packed goldTree := by
  have htop : g.topRule? 2 = some 3 := by
    rw [hg.topRule?, Grammar.idsWhere, hrules]
    rfl
  have hwhole : (chart g).itemsOver (chart g).wholeSpan =
      [(2, ⟨2, ⟨0, 2⟩, .base, #[.binary 2 0 1]⟩)] := rfl
  have hstart : (chart g).grammar.isStart 2 = true := by
    have hgrammar : (chart g).grammar = g := rfl
    rw [hgrammar, Grammar.isStart, htop]
    rfl
  have hitem0 : (chart g).item? 0 = some ⟨0, ⟨0, 1⟩, .base, #[.lexical 0 0]⟩ := rfl
  have hitem1 : (chart g).item? 1 = some ⟨1, ⟨1, 2⟩, .base, #[.lexical 1 1]⟩ := rfl
  have hitem2 : (chart g).item? 2 = some ⟨2, ⟨0, 2⟩, .base, #[.binary 2 0 1]⟩ := rfl
  refine ⟨2, _, by rw [hwhole]; exact List.mem_singleton_self _, hstart, ?_⟩
  have hstep (i : Nat) : CoarseStep.lexical i i ∈ #[CoarseStep.lexical i i] := by simp
  exact .binary hitem2 (by simp) (.lexical hitem0 (hstep 0)) (.lexical hitem1 (hstep 1))

end Sample

end Categorial
