import Categorial.Proofs.Dependency.Rebracketed
import Categorial.Proofs.Head.Agreement
set_option autoImplicit false

/-!
Where dependencies come from. Owners are open slots of words of the tree, and heads are words of the tree; whatever
combines them keeps it so. Hence a dependency relates two words of the tree, and in a licensed derivation two words of
the phrase in which it is found, from where it is passed on to every larger phrase.
-/

namespace Categorial

/-- The owner is a slot of a word of the tree, one that the word's category has and does not silence. -/
structure Owner.OpenIn (g : Grammar) (t : Derivation) (o : Owner) : Prop where
  word : ∃ leaf ∈ t.leaves, leaf.2.start = o.word ∧ leaf.1.cat = o.cat
  slot : 1 ≤ o.slot ∧ o.slot ≤ g.arityOf o.cat
  heard : (g.markup o.cat).isSilent o.slot = false

theorem Owner.OpenIn.branch {g : Grammar} {t : Derivation} {step : Step} {span : Span} {children : List Derivation}
    (ht : t ∈ children) {o : Owner} (h : o.OpenIn g t) : o.OpenIn g (.branch step span children) where
  word := by
    obtain ⟨leaf, hleaf, hleaf'⟩ := h.word
    exact ⟨leaf, Derivation.mem_leavesOf.mpr ⟨t, ht, hleaf⟩, hleaf'⟩
  slot := h.slot
  heard := h.heard

namespace Predicate

def Owned (owners : Owner → Prop) (arguments : List (List Owner)) : Prop := ∀ os ∈ arguments, ∀ o ∈ os, owners o

/-- Words of the head and owners of arguments are of these kinds. -/
structure Over (words : Nat → Prop) (owners : Owner → Prop) (p : Predicate) : Prop where
  head : ∀ {ws : List Nat}, p.head = .words ws → ∀ w ∈ ws, words w
  owned : Owned owners p.arguments

/-- Such an owner depends on another word of this kind. -/
structure Relates (words : Nat → Prop) (owners : Owner → Prop) (d : Dependency) : Prop where
  target : owners ⟨d.target, d.cat, d.slot⟩
  source : words d.source
  ne : d.target ≠ d.source

variable {words words' : Nat → Prop} {owners owners' : Owner → Prop} {p q : Predicate}

theorem Over.mono (hwords : ∀ w, words w → words' w) (howners : ∀ o, owners o → owners' o)
    (h : p.Over words owners) : p.Over words' owners' where
  head hhead w hw := hwords w (h.head hhead w hw)
  owned os hos o ho := howners o (h.owned os hos o ho)

theorem Relates.mono (hwords : ∀ w, words w → words' w) (howners : ∀ o, owners o → owners' o) {d : Dependency}
    (h : Relates words owners d) : Relates words' owners' d :=
  ⟨howners _ h.target, hwords _ h.source, h.ne⟩

theorem owned_vacant (arity : Nat) : Owned owners (vacant arity) := by
  intro os hos o ho
  rw [List.eq_of_mem_replicate hos] at ho
  cases ho

theorem Owned.of_subset {ours theirs : List (List Owner)} (hsub : ours ⊆ theirs) (h : Owned owners theirs) :
    Owned owners ours :=
  fun os hos => h os (hsub hos)

theorem Owned.merge {ours theirs : List (List Owner)} (h : Owned owners ours) (h' : Owned owners theirs) :
    Owned owners (merge ours theirs) := by
  unfold Predicate.merge
  split
  · intro os hos o ho
    obtain ⟨i, hi, rfl⟩ := List.getElem_of_mem hos
    rw [List.getElem_zipWith] at ho
    rcases List.mem_append.mp ho with ho | ho
    · exact h _ (List.getElem_mem _) o ho
    · exact h' _ (List.getElem_mem _) o ho
  · exact h

theorem Owned.getD {arguments : List (List Owner)} (h : Owned owners arguments) {place : Option (List Owner)}
    (hplace : ∀ os ∈ place, os ∈ arguments) : ∀ o ∈ place.getD [], owners o := by
  cases place with
  | none => simp
  | some os => exact h os (hplace os rfl)

theorem head_eq_of_known {head : Head} {ws : List Nat} {w : Nat}
    (h : (match head with
      | .words ws => .words ws
      | .argument _ => .words [] : Head) = .words ws) (hw : w ∈ ws) : head = .words ws := by
  cases head with
  | words _ => exact h
  | argument _ =>
    cases h
    cases hw

theorem over_empty (arity : Nat) : (empty arity).Over words owners where
  head hhead w hw := by
    cases hhead
    cases hw
  owned := owned_vacant arity

theorem Over.resize (h : p.Over words owners) (arity : Nat) : (p.resize arity).Over words owners := by
  unfold Predicate.resize
  split
  · exact ⟨h.head, h.owned⟩
  · exact ⟨fun hhead w hw => h.head (head_eq_of_known hhead hw) w hw, owned_vacant arity⟩

theorem Over.unary (h : p.Over words owners) (rule : Rule) (arity : Nat) : (unary rule p arity).Over words owners := by
  have hraise : (unary.raise arity p).Over words owners :=
    ⟨fun hhead w hw => h.head (head_eq_of_known hhead hw) w hw, owned_vacant arity⟩
  unfold Predicate.unary
  split
  · exact hraise
  · exact hraise
  · exact h.resize arity

theorem relates_filled {os : List Owner} {head : Head} (hos : ∀ o ∈ os, owners o)
    (hhead : ∀ {ws : List Nat}, head = .words ws → ∀ w ∈ ws, words w) :
    ∀ d ∈ filled os head, Relates words owners d := by
  intro d hd
  cases head with
  | argument _ => cases hd
  | words ws =>
    obtain ⟨o, ho, hd⟩ := List.mem_flatMap.mp hd
    obtain ⟨w, hw, rfl⟩ := List.mem_map.mp hd
    obtain ⟨hw, hne⟩ := List.mem_filter.mp hw
    exact ⟨hos o ho, hhead rfl w hw, (bne_iff_ne.mp hne).symm⟩

/-- What a combination makes, and the dependencies that it finds, are of the same kinds as its parts. -/
def Gives (words : Nat → Prop) (owners : Owner → Prop) (r : Predicate × List Dependency) : Prop :=
  r.1.Over words owners ∧ ∀ d ∈ r.2, Relates words owners d

theorem Over.consume (hp : p.Over words owners) (hq : q.Over words owners) (index : Nat) :
    Gives words owners (consume p q index) := by
  refine ⟨⟨fun hhead w hw => ?_, hp.owned.of_subset List.eraseIdx_subset⟩,
    relates_filled (hp.owned.getD fun os hos => List.mem_of_getElem? hos) hq.head⟩
  simp only [Predicate.consume] at hhead
  split at hhead
  · split at hhead
    · exact hq.head hhead w hw
    · split at hhead <;> cases hhead
  · rename_i hwords
    exact hp.head (hwords.trans hhead) w hw

theorem Over.apply (hp : p.Over words owners) (hq : q.Over words owners) : Gives words owners (apply p q) := by
  unfold Predicate.apply
  split
  · exact hq.consume hp 0
  · refine ⟨⟨fun hhead w hw => ?_, .merge (hp.owned.of_subset (List.tail_subset _)) hq.owned⟩,
      relates_filled (hp.owned.getD fun os hos => List.mem_of_head? hos) hq.head⟩
    simp only at hhead
    split at hhead
    · exact hq.head hhead w hw
    · cases hhead
    · rename_i hwords
      exact hp.head (hwords.trans hhead) w hw

theorem Over.compose (hp : p.Over words owners) (hq : q.Over words owners) : Gives words owners (compose p q) := by
  unfold Predicate.compose
  split
  · exact hq.consume hp 1
  · refine ⟨⟨fun hhead w hw => ?_, fun os hos => ?_⟩,
      relates_filled (hp.owned.getD fun os hos => List.mem_of_head? hos) hq.head⟩
    · simp only at hhead
      split at hhead
      · split at hhead
        · cases hhead
        · cases hhead
          cases hw
        · rename_i hwords
          exact hq.head (hwords.trans hhead) w hw
      · exact hp.head hhead w hw
    · rcases List.mem_cons.mp hos with rfl | hos
      · exact hq.owned.getD fun os hos => List.mem_of_head? hos
      · exact Owned.merge (hp.owned.of_subset (List.tail_subset _)) (hq.owned.of_subset (List.tail_subset _)) os hos

theorem Over.coordinate (hp : p.Over words owners) (hq : q.Over words owners) :
    (coordinate p q).Over words owners := by
  refine ⟨fun hhead w hw => ?_, hp.owned.merge hq.owned⟩
  simp only [Predicate.coordinate] at hhead
  split at hhead
  · rename_i ws ws' hp' hq'
    cases hhead
    exact (List.mem_append.mp hw).elim (hp.head hp' w) (hq.head hq' w)
  · cases hhead
  · rename_i ws hp' _
    cases hhead
    exact hp.head hp' w hw

theorem Over.gives_nil (h : p.Over words owners) : Gives words owners (p, []) :=
  ⟨h, fun _ hd => absurd hd List.not_mem_nil⟩

theorem Over.binary (hp : p.Over words owners) (hq : q.Over words owners) (rule : Rule) (arity : Nat) :
    Gives words owners (binary rule p q arity) := by
  unfold Predicate.binary
  split
  · exact hp.apply hq
  · exact hq.apply hp
  · exact hp.compose hq
  · exact hq.compose hp
  · exact hq.compose hp
  · exact hq.gives_nil
  · exact hq.gives_nil
  · exact hp.gives_nil
  · exact (hp.coordinate hq).gives_nil
  · split
    · exact (hq.resize arity).gives_nil
    · exact (hp.resize arity).gives_nil

end Predicate

namespace Grammar

open Predicate

variable {g : Grammar}

theorem over_lexical (step : Step) (span : Span) :
    (Predicate.lexical g step.cat span.start).Over (Derivation.leaf step span).HasWord
      fun o => o.OpenIn g (.leaf step span) where
  head hhead w hw := by
    rw [head_lexical hhead, List.mem_singleton] at hw
    exact ⟨(step, span), List.mem_singleton_self _, hw.symm⟩
  owned os hos o ho := by
    obtain ⟨index, hindex, rfl⟩ := List.mem_map.mp hos
    rw [List.mem_range] at hindex
    simp only at ho
    split at ho
    · cases ho
    · rename_i hheard
      obtain rfl := List.mem_singleton.mp ho
      exact ⟨⟨(step, span), List.mem_singleton_self _, rfl, rfl⟩, by simp only; omega, by simpa using hheard⟩

theorem gives_decode (t : Derivation) : Gives t.HasWord (fun o => o.OpenIn g t) (g.decode t) := by
  induction t using Derivation.induction with
  | leaf step span => exact (over_lexical step span).gives_nil
  | branch step span children ih =>
    have hchild : ∀ t ∈ children, Gives (Derivation.branch step span children).HasWord
        (fun o => o.OpenIn g (.branch step span children)) (g.decode t) := by
      intro t ht
      obtain ⟨hover, hrelates⟩ := ih t ht
      exact ⟨hover.mono (fun _ => .branch ht) fun _ => .branch ht,
        fun d hd => (hrelates d hd).mono (fun _ => .branch ht) fun _ => .branch ht⟩
    clear ih
    match children, hchild with
    | [child], hchild =>
      obtain ⟨hover, hrelates⟩ := hchild child (by simp)
      cases hrule : g.rule? step.rule with
      | none => simpa only [decode, hrule] using (over_empty _).gives_nil
      | some rule => simpa only [decode, hrule] using ⟨hover.unary rule _, hrelates⟩
    | [left, right], hchild =>
      obtain ⟨hleft, hrelatesLeft⟩ := hchild left (by simp)
      obtain ⟨hright, hrelatesRight⟩ := hchild right (by simp)
      cases hrule : g.rule? step.rule with
      | none => simpa only [decode, hrule] using (over_empty _).gives_nil
      | some rule =>
        obtain ⟨hover, hrelates⟩ := hleft.binary hright rule (g.arityOf step.cat)
        simp only [decode, hrule]
        refine ⟨hover, fun d hd => ?_⟩
        simp only [List.mem_append] at hd
        rcases hd with (hd | hd) | hd
        · exact hrelatesLeft d hd
        · exact hrelatesRight d hd
        · exact hrelates d hd
    | [], _ => simpa only [decode] using (over_empty _).gives_nil
    | _ :: _ :: _ :: _, _ => simpa only [decode] using (over_empty _).gives_nil

namespace Licenses

variable {allowed : Nat → CatId → Prop} {s t : Derivation}

theorem holds_of_hasWord (h : g.Licenses allowed t) {position : Nat} (hword : t.HasWord position) :
    t.span.Holds position := by
  obtain ⟨leaf, hleaf, rfl⟩ := hword
  have hmem : leaf.2 ∈ t.leaves.map Prod.snd := List.mem_map_of_mem hleaf
  rw [h.leaves_eq] at hmem
  obtain ⟨i, hi, hword⟩ := List.mem_map.mp hmem
  obtain ⟨hle, hlt⟩ := List.mem_range'_1.mp hi
  have hstart : leaf.2.start = i := congrArg Span.start hword.symm
  simp only [Span.length] at hlt
  exact ⟨by omega, by omega⟩

theorem part (hs : s.Part t) (h : g.Licenses allowed t) :
    g.Licenses allowed s ∧ ∀ d ∈ (g.decode s).2, d ∈ (g.decode t).2 := by
  induction hs with
  | whole => exact ⟨h, fun _ hd => hd⟩
  | child hmem _ ih =>
    cases h with
    | unary ht hrule =>
      obtain rfl := List.mem_singleton.mp hmem
      obtain ⟨hlicensed, hsub⟩ := ih ht
      obtain ⟨r, hr, -⟩ := hrule
      refine ⟨hlicensed, fun d hd => ?_⟩
      simpa only [decode, hr] using hsub d hd
    | binary hleft hright _ hrule =>
      obtain ⟨r, hr, -⟩ := hrule
      rcases List.mem_pair.mp hmem with rfl | rfl
      · obtain ⟨hlicensed, hsub⟩ := ih hleft
        exact ⟨hlicensed, fun d hd => by simp [decode, hr, hsub d hd]⟩
      · obtain ⟨hlicensed, hsub⟩ := ih hright
        exact ⟨hlicensed, fun d hd => by simp [decode, hr, hsub d hd]⟩

end Licenses

/-- Every dependency leads from a word of the tree, through a slot that its category has and does not silence, to
another word of the tree. A licensed derivation has the dependencies of each of its phrases, and these relate words of
the phrase. -/
theorem dependencies_grounded (g : Grammar) (t : Derivation) :
    (∀ d ∈ (g.dependencies t).toList,
      (∃ leaf ∈ t.leaves, leaf.2.start = d.target ∧ leaf.1.cat = d.cat) ∧
      (∃ leaf ∈ t.leaves, leaf.2.start = d.source) ∧ d.target ≠ d.source ∧
      (1 ≤ d.slot ∧ d.slot ≤ g.arityOf d.cat) ∧ (g.markup d.cat).isSilent d.slot = false) ∧
    (g.Licenses (fun _ _ => True) t → ∀ s : Derivation, s.Part t → ∀ d ∈ (g.dependencies s).toList,
      d ∈ (g.dependencies t).toList ∧ s.span.Holds d.target ∧ s.span.Holds d.source) := by
  have hrelates : ∀ s : Derivation, ∀ d ∈ (g.dependencies s).toList, Relates s.HasWord (fun o => o.OpenIn g s) d :=
    fun s d hd => (gives_decode s).2 d (mem_dependencies.mp hd)
  constructor
  · intro d hd
    obtain ⟨⟨htarget, hslot, hheard⟩, hsource, hne⟩ := hrelates t d hd
    exact ⟨htarget, hsource, hne, hslot, hheard⟩
  · intro ht s hs d hd
    obtain ⟨hlicensed, hsub⟩ := ht.part hs
    obtain ⟨⟨⟨leaf, hleaf, hstart, -⟩, -, -⟩, hsource, -⟩ := hrelates s d hd
    exact ⟨mem_dependencies.mpr (hsub d (mem_dependencies.mp hd)), hlicensed.holds_of_hasWord ⟨leaf, hleaf, hstart⟩,
      hlicensed.holds_of_hasWord hsource⟩

end Grammar

namespace Bracketings

open GrammarBuilder

theorem dependencies_grounded_since : ∃ g, builder.build 0 = .ok g ∧
    g.Licenses (fun _ _ => True) (seen sinceApplied) ∧ sinceApplied.Part (seen sinceApplied) ∧
    ⟨2, 3, 7, 2⟩ ∈ (g.dependencies sinceApplied).toList ∧
    ⟨2, 3, 7, 2⟩ ∈ (g.dependencies (seen sinceApplied)).toList ∧ Span.Holds ⟨1, 4⟩ 2 ∧ Span.Holds ⟨1, 4⟩ 3 ∧
    ⟨0, 4, 1, 1⟩ ∈ (g.dependencies (seen sinceApplied)).toList ∧ 1 ≤ g.arityOf 1 := by
  obtain ⟨g, hbuild, hg, hcategories, hrules, hmarkups⟩ := exists_build
  have hambiguous := ambiguous_since hg hrules
  have hlicensed := licensed_seen hg hrules hambiguous.licensed' rfl rfl
  have hpart : sinceApplied.Part (seen sinceApplied) :=
    .child (t := pair 5 14 sinceApplied (dogs 4)) (by simp) (.child (t := sinceApplied) (by simp) .whole)
  have hdecode : (g.decode sinceApplied).2 = [⟨2, 3, 7, 2⟩] := by
    simp only [sinceApplied, even, since, rains, pair, word, Grammar.decode, rule?_eq hrules, Predicate.lexical,
      Grammar.arityOf, Grammar.markup, Grammar.category?, hcategories, hmarkups]
    rfl
  have hmem : (⟨2, 3, 7, 2⟩ : Dependency) ∈ (g.dependencies sinceApplied).toList := by
    rw [Grammar.mem_dependencies, hdecode]
    exact List.mem_singleton_self _
  have hdogs : (⟨0, 4, 1, 1⟩ : Dependency) ∈ (g.dependencies (seen sinceApplied)).toList := by
    rw [Grammar.mem_dependencies, (decode_since hcategories hrules hmarkups).2]
    decide
  obtain ⟨hgrounded, hparts⟩ := Grammar.dependencies_grounded g (seen sinceApplied)
  obtain ⟨hpassed, htarget, hsource⟩ := hparts hlicensed sinceApplied hpart _ hmem
  obtain ⟨-, -, -, ⟨-, hslot⟩, -⟩ := hgrounded _ hdogs
  exact ⟨g, hbuild, hlicensed, hpart, hmem, hpassed, htarget, hsource, hdogs, hslot⟩

end Bracketings

end Categorial
