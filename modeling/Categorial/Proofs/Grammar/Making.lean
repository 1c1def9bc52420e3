import Categorial.Grammar.Builder
import Categorial.Proofs.Treebank.Format
set_option autoImplicit false

namespace Categorial

namespace BankTree

/-- Every category of the tree is proper. -/
inductive Proper : BankTree → Prop
  | leaf {cat : Category} {token : Token} : cat.Proper → Proper (.leaf cat token)
  | node {cat : Category} {head : Nat} {children : List BankTree} : cat.Proper →
      (∀ t ∈ children, Proper t) → Proper (.node cat head children)

theorem proper_of_read {s : List Char} {t : BankTree} (h : read s = .ok t) : t.Proper := by
  refine read_induction (fun hcat => ?_) (fun hcat => ?_) h
  · exact .leaf (Category.proper_of_read hcat)
  · exact .node (Category.proper_of_read hcat)

end BankTree

namespace GrammarBuilder

/-- The builder as a step leaves it, whether or not the step fails. -/
def after {β : Type} (x : Building β) (b : GrammarBuilder) : GrammarBuilder := (x.run b).2

/-- The builders that a run of operations can reach. Trees come from a treebank: they are what a line of it is read as,
so their categories are proper. -/
inductive Made : GrammarBuilder → Prop
  | empty : Made .empty
  | addCategory {b : GrammarBuilder} (s : String) : Made b → Made (after (addCategory s) b)
  | addLexical {b : GrammarBuilder} (s : String) : Made b → Made (after (addLexical s) b)
  | addStart {b : GrammarBuilder} (s : String) : Made b → Made (after (addStart s) b)
  | typeRaise {b : GrammarBuilder} (x t : String) : Made b → Made (after (typeRaise x t) b)
  | typeChange {b : GrammarBuilder} (source target : String) :
      Made b → Made (after (typeChange source target) b)
  | setMarkup {b : GrammarBuilder} (c : String) (m : Markup) : Made b → Made (after (setMarkup c m) b)
  | observe {b : GrammarBuilder} {s : List Char} {t : BankTree} : BankTree.read s = .ok t → Made b →
      Made (after (observe t) b)
  | setCombinators {b : GrammarBuilder} (cs : List Combinator) : Made b → Made (b.setCombinators cs)
  | disable {b : GrammarBuilder} (c : Combinator) : Made b → Made (b.disable c)
  | setEnumerate {b : GrammarBuilder} (on : Bool) : Made b → Made (b.setEnumerate on)
  | setMinCount {b : GrammarBuilder} (n : Nat) : Made b → Made (b.setMinCount n)

def Proper (b : GrammarBuilder) : Prop := ∀ c ∈ b.categories, c.Proper

/-- The step keeps categories proper, and what it returns is as said. -/
def Ensures {β : Type} (x : Building β) (post : β → Prop) : Prop :=
  ∀ b : GrammarBuilder, b.Proper → (after x b).Proper ∧ ∀ a, (x.run b).1 = .ok a → post a

section

variable {β γ : Type}

theorem run_pure {β : Type} (a : β) (b : GrammarBuilder) :
    (pure a : Building β).run b = (.ok a, b) := rfl

theorem run_modify (f : GrammarBuilder → GrammarBuilder) (b : GrammarBuilder) :
    (modify f : Building PUnit).run b = (.ok ⟨⟩, f b) := rfl

theorem run_intern (c : Category) (b : GrammarBuilder) :
    (liftM (intern c) : Building CatId).run b = (.ok (intern c b).1, (intern c b).2) := rfl

theorem run_intern_bind (c : Category) (f : CatId → Building β) (b : GrammarBuilder) :
    (liftM (intern c) >>= f).run b = (f (intern c b).1).run (intern c b).2 := by
  rw [exceptT_run_bind, run_intern]

theorem run_intern_new {b : GrammarBuilder} {c : Category} (hnew : b.catIds[c.text]? = none) :
    (liftM (intern c) : Building CatId).run b = (.ok b.categories.size, { b with
      categories := b.categories.push c, catIds := b.catIds.insert c.text b.categories.size }) := by
  rw [run_intern, intern, hnew]

theorem run_intern_known {b : GrammarBuilder} {c : Category} {id : CatId}
    (hknown : b.catIds[c.text]? = some id) :
    (liftM (intern c) : Building CatId).run b = (.ok id, b) := by
  rw [run_intern, intern, hknown]

theorem ensures_bind {x : Building β} {f : β → Building γ} {P : β → Prop} {Q : γ → Prop}
    (hx : Ensures x P) (hf : ∀ a, P a → Ensures (f a) Q) : Ensures (x >>= f) Q := by
  intro b hb
  obtain ⟨hafter, hpost⟩ := hx b hb
  have hbind := exceptT_run_bind x f b
  cases hrun : x.run b with
  | mk result b' =>
    have hb' : (after x b) = b' := by rw [after, hrun]
    rw [hb'] at hafter
    rw [hrun] at hpost hbind
    cases result with
    | error e =>
      simp only at hbind
      refine ⟨?_, ?_⟩
      · rw [after, hbind]
        exact hafter
      · intro a ha
        rw [hbind] at ha
        cases ha
    | ok a =>
      have hnext := hf a (hpost a rfl) b' hafter
      simp only at hbind
      rw [after, hbind]
      exact hnext

theorem ensures_pure {a : β} {P : β → Prop} (h : P a) : Ensures (pure a) P := by
  intro b hb
  refine ⟨hb, fun a' ha => ?_⟩
  cases ha
  exact h

theorem ensures_throw (e : Error) (P : β → Prop) : Ensures (throw e) P := by
  intro b hb
  refine ⟨hb, fun a ha => ?_⟩
  cases ha

theorem ensures_readCategory (s : String) : Ensures (readCategory s) Category.Proper := by
  intro b hb
  refine ⟨hb, fun c hc => ?_⟩
  have hread : read s = .ok c := hc
  unfold read at hread
  cases htext : Category.ofString? s with
  | error e => simp [htext, Except.mapError] at hread
  | ok c' =>
    rw [htext] at hread
    cases hread
    exact Category.proper_of_read htext

theorem ensures_intern {c : Category} (hc : c.Proper) :
    Ensures (liftM (intern c) : Building CatId) fun _ => True := by
  intro b hb
  refine ⟨?_, fun _ _ => trivial⟩
  have hafter : after (liftM (intern c) : Building CatId) b = (intern c b).2 := rfl
  rw [hafter, intern]
  split
  · exact hb
  · intro d hd
    rcases Array.mem_push.mp hd with hmem | rfl
    · exact hb d hmem
    · exact hc

theorem ensures_modify {f : GrammarBuilder → GrammarBuilder}
    (h : ∀ b, (f b).categories = b.categories) : Ensures (modify f : Building PUnit) fun _ => True := by
  intro b hb
  have hafter : after (modify f : Building PUnit) b = f b := rfl
  refine ⟨?_, fun _ _ => trivial⟩
  rw [hafter, Proper, h b]
  exact hb

end

theorem ensures_addCategory (s : String) : Ensures (addCategory s) fun _ => True :=
  ensures_bind (ensures_readCategory s) fun _ hc => ensures_intern hc

theorem ensures_addLexical (s : String) : Ensures (addLexical s) fun _ => True :=
  ensures_bind (ensures_addCategory s) fun _ _ =>
    ensures_bind (ensures_modify fun _ => rfl) fun _ _ => ensures_pure trivial

theorem ensures_addStart (s : String) : Ensures (addStart s) fun _ => True :=
  ensures_bind (ensures_addCategory s) fun _ _ =>
    ensures_bind (ensures_modify fun _ => rfl) fun _ _ => ensures_pure trivial

theorem ensures_typeRaise (x t : String) : Ensures (typeRaise x t) fun _ => True :=
  ensures_bind (ensures_readCategory x) fun _ hx =>
    ensures_bind (ensures_readCategory t) fun _ ht =>
      ensures_bind (ensures_intern hx) fun _ _ =>
        ensures_bind (ensures_intern (Category.proper_raise hx ht .forward)) fun _ _ =>
          ensures_bind (ensures_intern (Category.proper_raise hx ht .backward)) fun _ _ =>
            ensures_modify fun _ => rfl

theorem ensures_typeChange (source target : String) : Ensures (typeChange source target) fun _ => True :=
  ensures_bind (ensures_readCategory source) fun _ hsource =>
    ensures_bind (ensures_readCategory target) fun _ htarget =>
      ensures_bind (ensures_intern hsource) fun _ _ =>
        ensures_bind (ensures_intern htarget) fun _ _ => ensures_modify fun _ => rfl

theorem ensures_setMarkup (c : String) (m : Markup) : Ensures (setMarkup c m) fun _ => True :=
  ensures_bind (ensures_readCategory c) fun _ hc =>
    ensures_bind (ensures_intern hc) fun _ _ => ensures_modify fun _ => rfl

/-- Induction on the tree; only nodes of one or two children get as far as a rule. -/
theorem ensures_observeNode {t : BankTree} (ht : t.Proper) : Ensures (observeNode t) fun _ => True := by
  induction ht with
  | leaf hc =>
    rw [observeNode]
    exact ensures_bind (ensures_intern hc) fun _ _ =>
      ensures_bind (ensures_modify fun _ => rfl) fun _ _ => ensures_pure trivial
  | @node cat head children hc _ ih =>
    match children, ih with
    | [], _ =>
      rw [observeNode]
      · exact ensures_bind (ensures_intern hc) fun _ _ => ensures_throw _ _
      · simp
      · simp
    | [child], ih =>
      rw [observeNode]
      exact ensures_bind (ensures_intern hc) fun _ _ =>
        ensures_bind (ih child (by simp)) fun _ _ =>
          ensures_bind (ensures_modify fun _ => rfl) fun _ _ => ensures_pure trivial
    | [left, right], ih =>
      rw [observeNode]
      exact ensures_bind (ensures_intern hc) fun _ _ =>
        ensures_bind (ih left (by simp)) fun _ _ =>
          ensures_bind (ih right (by simp)) fun _ _ =>
            ensures_bind (ensures_modify fun _ => rfl) fun _ _ => ensures_pure trivial
    | _ :: _ :: _ :: _, _ =>
      rw [observeNode]
      · exact ensures_bind (ensures_intern hc) fun _ _ => ensures_throw _ _
      · simp
      · simp

theorem ensures_observe {t : BankTree} (ht : t.Proper) : Ensures (observe t) fun _ => True :=
  ensures_bind (ensures_observeNode ht) fun _ _ => ensures_modify fun _ => rfl

theorem proper_empty : Proper .empty := by simp [Proper, empty]

/-- Every builder that can be made has proper categories only. -/
theorem Made.proper {b : GrammarBuilder} (hb : Made b) : b.Proper := by
  induction hb with
  | empty => exact proper_empty
  | addCategory s _ ih => exact (ensures_addCategory s _ ih).1
  | addLexical s _ ih => exact (ensures_addLexical s _ ih).1
  | addStart s _ ih => exact (ensures_addStart s _ ih).1
  | typeRaise x t _ ih => exact (ensures_typeRaise x t _ ih).1
  | typeChange source target _ ih => exact (ensures_typeChange source target _ ih).1
  | setMarkup c m _ ih => exact (ensures_setMarkup c m _ ih).1
  | observe hread _ ih => exact (ensures_observe (BankTree.proper_of_read hread) _ ih).1
  | setCombinators cs _ ih => exact ih
  | disable c _ ih => exact ih
  | setEnumerate on _ ih => exact ih
  | setMinCount n _ ih => exact ih

section

variable {b : GrammarBuilder} {gid : Nat} {g : Grammar}

theorem ofRules_of_build (h : b.build gid = .ok g) :
    Grammar.ofRules gid b.categories b.rules b.codebookMarkups = .ok g := by
  unfold build at h
  cases hrules : Grammar.ofRules gid b.categories b.rules b.codebookMarkups with
  | error e => simp [hrules, Except.mapError] at h
  | ok g' =>
    rw [hrules] at h
    cases h
    rfl

theorem mem_numbered_iff {id : CatId} {c : Category} :
    (id, c) ∈ b.numbered ↔ b.categories[id]? = some c := by
  simp [numbered, List.mem_zipIdx_iff_getElem?]

theorem mem_codebookMarkups_iff {id : CatId} {m : Markup} : (id, m) ∈ b.codebookMarkups ↔
    ∃ c entry, b.categories[id]? = some c ∧ (b.markups.find? fun (c', _) => c' == c) = some entry ∧
      entry.2 = m := by
  simp only [codebookMarkups, List.mem_filterMap, Prod.exists, mem_numbered_iff, Option.map_eq_some_iff,
    Prod.mk.injEq]
  constructor
  · rintro ⟨_, c, hc, c', m', hfind, rfl, rfl⟩
    exact ⟨c, c', m', hc, hfind, rfl⟩
  · rintro ⟨c, c', m', hc, hfind, rfl⟩
    exact ⟨id, c, hc, c', m', hfind, rfl, rfl⟩

end

end GrammarBuilder

end Categorial
