import Categorial.Proofs.Grammar.Built
import Categorial.Proofs.Grammar.Obtained
import Categorial.Proofs.Treebank.Nodes
set_option autoImplicit false

namespace Categorial

/-- The categories that stand under the ids, if they are all there. -/
def LocalTree.lookup (categories : Array Category) (q : LocalTree CatId) : Option (LocalTree Category) :=
  q.rename (categories[·]?)

def UnaryKey.localTree (key : UnaryKey) : LocalTree CatId := .unary key.child key.result

def BinaryKey.localTree (key : BinaryKey) : LocalTree CatId := .binary key.left key.right key.result

section

variable {categories : Array Category} {x y c : Category} {idx idy id : CatId}

theorem getElem?_push_of_some (hid : categories[id]? = some x) : (categories.push c)[id]? = some x := by
  obtain ⟨hlt, heq⟩ := Array.getElem?_eq_some_iff.mp hid
  rw [Array.getElem?_push_lt hlt, heq]

theorem LocalTree.lookup_push {q : LocalTree CatId} {p : LocalTree Category} (h : q.lookup categories = some p) :
    q.lookup (categories.push c) = some p :=
  rename_mono getElem?_push_of_some h

theorem LocalTree.lookup_word (hid : categories[id]? = some c) : (word id).lookup categories = some (.word c) := by
  simp [lookup, rename, hid]

theorem LocalTree.lookup_root (hid : categories[id]? = some c) : (root id).lookup categories = some (.root c) := by
  simp [lookup, rename, hid]

theorem LocalTree.lookup_eq_word {q : LocalTree CatId} :
    q.lookup categories = some (.word c) ↔ ∃ id, q = .word id ∧ categories[id]? = some c := by
  cases q <;> simp [lookup, rename, Option.bind_eq_some_iff]

theorem LocalTree.lookup_eq_root {q : LocalTree CatId} :
    q.lookup categories = some (.root c) ↔ ∃ id, q = .root id ∧ categories[id]? = some c := by
  cases q <;> simp [lookup, rename, Option.bind_eq_some_iff]

theorem LocalTree.lookup_eq_unary {q : LocalTree CatId} : q.lookup categories = some (.unary x c) ↔
    ∃ idx id, q = .unary idx id ∧ categories[idx]? = some x ∧ categories[id]? = some c := by
  cases q <;> simp [lookup, rename, Option.bind_eq_some_iff]

theorem LocalTree.lookup_eq_binary {q : LocalTree CatId} : q.lookup categories = some (.binary x y c) ↔
    ∃ idx idy id, q = .binary idx idy id ∧ categories[idx]? = some x ∧ categories[idy]? = some y ∧
      categories[id]? = some c := by
  cases q <;> simp [lookup, rename, Option.bind_eq_some_iff]

theorem UnaryKey.lookup_localTree {key : UnaryKey} (hchild : categories[key.child]? = some x)
    (hresult : categories[key.result]? = some c) : key.localTree.lookup categories = some (.unary x c) := by
  simp [LocalTree.lookup, LocalTree.rename, localTree, hchild, hresult]

theorem BinaryKey.lookup_localTree {key : BinaryKey} (hleft : categories[key.left]? = some x)
    (hright : categories[key.right]? = some y) (hresult : categories[key.result]? = some c) :
    key.localTree.lookup categories = some (.binary x y c) := by
  simp [LocalTree.lookup, LocalTree.rename, localTree, hleft, hright, hresult]

end

namespace Tally

section

variable {κ : Type}

def Known (categories : Array Category) (tree : κ → LocalTree CatId) (t : Tally κ) : Prop :=
  ∀ e ∈ t.entries, ∃ p, (tree e.1).lookup categories = some p

/-- The counts of all keys with these categories. -/
def seen (categories : Array Category) (tree : κ → LocalTree CatId) (t : Tally κ) (p : LocalTree Category) : Nat :=
  t.weight fun k => (tree k).lookup categories == some p

/-- Some key has these categories, whatever its count. -/
def Lists (categories : Array Category) (tree : κ → LocalTree CatId) (t : Tally κ) (p : LocalTree Category) : Prop :=
  ∃ e ∈ t.entries, (tree e.1).lookup categories = some p

variable {categories : Array Category} {tree : κ → LocalTree CatId} {t : Tally κ}

theorem Lists.push {p : LocalTree Category} (h : t.Lists categories tree p) (c : Category) :
    t.Lists (categories.push c) tree p :=
  h.imp fun _ => And.imp_right LocalTree.lookup_push

theorem Known.push (h : t.Known categories tree) (c : Category) : t.Known (categories.push c) tree :=
  fun e he => (h e he).imp fun _ => LocalTree.lookup_push

theorem Known.seen_push (h : t.Known categories tree) (c : Category) (p : LocalTree Category) :
    t.seen (categories.push c) tree p = t.seen categories tree p := by
  refine weight_congr fun e he => ?_
  obtain ⟨p', hp'⟩ := h e he
  rw [hp', LocalTree.lookup_push hp']

variable [Ord κ] {k : κ} {p' : LocalTree Category}

theorem Lists.alter (h : t.Lists categories tree p') (f : Option Nat → Nat) (k : κ) :
    (t.alter f k).Lists categories tree p' := by
  obtain ⟨e, he, hp⟩ := h
  rcases mem_alterEntries_of_mem f k he with hmem | hmem
  · exact ⟨e, hmem, hp⟩
  · exact ⟨_, hmem, hp⟩

variable [Std.LawfulEqOrd κ]

theorem Known.alter (h : t.Known categories tree) (hk : (tree k).lookup categories = some p')
    (f : Option Nat → Nat) : (t.alter f k).Known categories tree := by
  intro e he
  rcases mem_alterEntries he with ⟨rfl, -⟩ | hold
  · exact ⟨p', hk⟩
  · exact h e hold

theorem lists_alter (hk : (tree k).lookup categories = some p') (f : Option Nat → Nat) (t : Tally κ) :
    (t.alter f k).Lists categories tree p' := by
  obtain ⟨n, hn⟩ := has_alter t f k
  exact ⟨_, hn, hk⟩

theorem seen_alter (hk : (tree k).lookup categories = some p') {f : Option Nat → Nat} {n : Nat} (hf : Adds f n)
    (p : LocalTree Category) : Wraps ((t.alter f k).seen categories tree p)
      (t.seen categories tree p + (List.replicate n p').count p) := by
  have hweight := weight_alter hf (fun k => (tree k).lookup categories == some p) t k
  rw [hk] at hweight
  simpa [List.count_replicate, seen] using hweight

end

end Tally

namespace GrammarBuilder

/-- Every category is found under its text and stands in one place, and every id that is counted or declared has a
category. A step over one child is named by its result. -/
structure Coherent (b : GrammarBuilder) : Prop where
  proper : b.Proper
  ids : ∀ {text : String} {id : CatId}, b.catIds[text]? = some id ↔
    ∃ c, b.categories[id]? = some c ∧ Category.text c = text
  words : b.lexical.Known b.categories .word
  unaries : b.seenUnary.Known b.categories UnaryKey.localTree
  binaries : b.seenBinary.Known b.categories BinaryKey.localTree
  roots : b.start.Known b.categories .root
  declared : ∀ key ∈ b.declared, ∃ p, key.localTree.lookup b.categories = some p
  named : ∀ e ∈ b.seenUnary.entries, ∃ c, b.categories[e.1.result]? = some c ∧ e.1.combinator = unaryCombinator c

/-- How often a node, or a root, has been counted. -/
def tallied (b : GrammarBuilder) (p : LocalTree Category) : Nat :=
  b.lexical.seen b.categories .word p + b.seenUnary.seen b.categories UnaryKey.localTree p +
    b.seenBinary.seen b.categories BinaryKey.localTree p + b.start.seen b.categories .root p

/-- A node or a root that is listed, be it with a count that has turned over to zero. -/
def Lists (b : GrammarBuilder) (p : LocalTree Category) : Prop :=
  b.lexical.Lists b.categories .word p ∨ b.seenUnary.Lists b.categories UnaryKey.localTree p ∨
    b.seenBinary.Lists b.categories BinaryKey.localTree p ∨ b.start.Lists b.categories .root p

/-- From one builder to the other, categories keep their ids, and these nodes and roots are counted. -/
structure Reaches (b : GrammarBuilder) (seen : List (LocalTree Category)) (b' : GrammarBuilder) : Prop where
  coherent : b'.Coherent
  keeps : ∀ {id : CatId} {c : Category}, b.categories[id]? = some c → b'.categories[id]? = some c
  tallied : ∀ p, Tally.Wraps (b'.tallied p) (b.tallied p + seen.count p)
  lists : ∀ p, b.Lists p ∨ p ∈ seen → b'.Lists p

theorem coherent_empty : GrammarBuilder.empty.Coherent where
  proper := proper_empty
  ids := by simp [GrammarBuilder.empty]
  words := nofun
  unaries := nofun
  binaries := nofun
  roots := nofun
  declared := nofun
  named := nofun

section

variable {b b' b'' : GrammarBuilder} {seen seen' : List (LocalTree Category)} {x y c : Category}
  {idx idy id : CatId}

theorem Reaches.refl (hb : b.Coherent) : b.Reaches [] b :=
  ⟨hb, fun hold => hold, fun _ => .refl _, fun _ h => h.resolve_right List.not_mem_nil⟩

theorem reaches_of_counts_eq (hb' : b'.Coherent)
    (h : (b'.categories, b'.lexical, b'.seenUnary, b'.seenBinary, b'.start) =
      (b.categories, b.lexical, b.seenUnary, b.seenBinary, b.start)) : b.Reaches [] b' := by
  simp only [Prod.mk.injEq] at h
  obtain ⟨hcategories, hlexical, hunary, hbinary, hstart⟩ := h
  refine ⟨hb', fun hold => hcategories ▸ hold, fun p => ?_, fun p hp => ?_⟩
  · rw [tallied, tallied, hcategories, hlexical, hunary, hbinary, hstart]
    exact .refl _
  · rw [Lists, hcategories, hlexical, hunary, hbinary, hstart]
    exact hp.resolve_right List.not_mem_nil

theorem Reaches.trans (h : b.Reaches seen b') (h' : b'.Reaches seen' b'') : b.Reaches (seen ++ seen') b'' where
  coherent := h'.coherent
  keeps := h'.keeps ∘ h.keeps
  tallied p := by
    rw [List.count_append, ← Nat.add_assoc]
    exact (h'.tallied p).trans ((h.tallied p).add (.refl _))
  lists p hp := h'.lists p <| by
    rw [List.mem_append, ← or_assoc] at hp
    exact hp.imp_left (h.lists p)

theorem Coherent.catIds_eq_some_iff (hb : b.Coherent) (hc : c.Proper) :
    b.catIds[c.text]? = some id ↔ b.categories[id]? = some c := by
  rw [hb.ids]
  constructor
  · rintro ⟨c', hc', htext⟩
    rwa [← (hb.proper c' (Array.mem_of_getElem? hc')).eq_of_text hc htext]
  · exact fun h => ⟨c, h, rfl⟩

theorem Coherent.id_unique (hb : b.Coherent) (hidx : b.categories[idx]? = some c)
    (hidy : b.categories[idy]? = some c) : idx = idy :=
  Option.some.inj ((hb.ids.mpr ⟨c, hidx, rfl⟩).symm.trans (hb.ids.mpr ⟨c, hidy, rfl⟩))

theorem reaches_push (hb : b.Coherent) (hc : c.Proper) (hnew : b.catIds[c.text]? = none) :
    b.Reaches [] { b with
      categories := b.categories.push c, catIds := b.catIds.insert c.text b.categories.size } where
  coherent :=
    { proper := by
        intro c' hc'
        rcases Array.mem_push.mp hc' with hold | rfl
        · exact hb.proper c' hold
        · exact hc
      ids := by
        intro text id
        simp only [Std.HashMap.getElem?_insert, Array.getElem?_push, beq_iff_eq]
        by_cases htext : c.text = text
        · subst htext
          rw [if_pos rfl]
          by_cases hid : id = b.categories.size
          · simp [hid]
          · rw [if_neg hid, ← hb.ids, hnew]
            simp [Ne.symm hid]
        · rw [if_neg htext, hb.ids]
          by_cases hid : id = b.categories.size
          · simp [hid, htext]
          · rw [if_neg hid]
      words := hb.words.push c
      unaries := hb.unaries.push c
      binaries := hb.binaries.push c
      roots := hb.roots.push c
      declared := fun key hkey => (hb.declared key hkey).imp fun _ => LocalTree.lookup_push
      named := fun e he => (hb.named e he).imp fun _ => And.imp_left getElem?_push_of_some }
  keeps := getElem?_push_of_some
  tallied p := by
    simp only [GrammarBuilder.tallied, hb.words.seen_push, hb.unaries.seen_push, hb.binaries.seen_push,
      hb.roots.seen_push, List.count_nil, Nat.add_zero]
    exact .refl _
  lists p hp := (hp.resolve_right List.not_mem_nil).imp (·.push c)
    (Or.imp (·.push c) (Or.imp (·.push c) (·.push c)))

theorem reaches_intern (hb : b.Coherent) (hc : c.Proper) :
    b.Reaches [] (intern c b).2 ∧ (intern c b).2.categories[(intern c b).1]? = some c := by
  rw [intern]
  cases hknown : b.catIds[c.text]? with
  | some id => exact ⟨.refl hb, (hb.catIds_eq_some_iff hc).mp hknown⟩
  | none => exact ⟨reaches_push hb hc hknown, Array.getElem?_push_size⟩

-- Counting a node or a root.

theorem reaches_word (hb : b.Coherent) (hid : b.categories[id]? = some c) {f : Option Nat → Nat} {n : Nat}
    (hf : Tally.Adds f n) :
    b.Reaches (List.replicate n (.word c)) { b with lexical := b.lexical.alter f id } where
  coherent := { hb with words := hb.words.alter (LocalTree.lookup_word hid) f }
  keeps hold := hold
  tallied p := by
    simp only [GrammarBuilder.tallied, Nat.add_right_comm _ _ ((List.replicate n (LocalTree.word c)).count p)]
    exact (((Tally.seen_alter (LocalTree.lookup_word hid) hf p).add (.refl _)).add (.refl _)).add (.refl _)
  lists p hp := by
    rcases hp with hp | hp
    · exact hp.imp_left (·.alter f id)
    · exact .inl ((List.eq_of_mem_replicate hp) ▸ Tally.lists_alter (LocalTree.lookup_word hid) f b.lexical)

theorem reaches_root (hb : b.Coherent) (hid : b.categories[id]? = some c) {f : Option Nat → Nat} {n : Nat}
    (hf : Tally.Adds f n) :
    b.Reaches (List.replicate n (.root c)) { b with start := b.start.alter f id } where
  coherent := { hb with roots := hb.roots.alter (LocalTree.lookup_root hid) f }
  keeps hold := hold
  tallied p := by
    simp only [GrammarBuilder.tallied, Nat.add_assoc _ _ ((List.replicate n (LocalTree.root c)).count p)]
    exact (Tally.Wraps.refl _).add (Tally.seen_alter (LocalTree.lookup_root hid) hf p)
  lists p hp := by
    rcases hp with hp | hp
    · exact hp.imp_right (Or.imp_right (Or.imp_right (·.alter f id)))
    · exact .inr (.inr (.inr ((List.eq_of_mem_replicate hp) ▸
        Tally.lists_alter (LocalTree.lookup_root hid) f b.start)))

theorem reaches_unary (hb : b.Coherent) (hchild : b.categories[idx]? = some x) (hresult : b.categories[id]? = some c) :
    b.Reaches [.unary x c] { b with seenUnary := b.seenUnary.add ⟨idx, unaryCombinator c, id⟩ 1 } where
  coherent := { hb with
    unaries := hb.unaries.alter (UnaryKey.lookup_localTree hchild hresult) _
    named := fun e he => by
      rcases Tally.mem_alterEntries he with ⟨hkey, -⟩ | hold
      · rw [hkey]
        exact ⟨c, hresult, rfl⟩
      · exact hb.named e hold }
  keeps hold := hold
  tallied p := by
    obtain ⟨hle, hmod⟩ := Tally.seen_alter (t := b.seenUnary) (k := ⟨idx, unaryCombinator c, id⟩)
      (UnaryKey.lookup_localTree hchild hresult) (Tally.adds_add 1) p
    rw [List.replicate_one, ← Tally.add] at hle hmod
    simp only [GrammarBuilder.tallied]
    exact ⟨by omega, by omega⟩
  lists p hp := by
    rcases hp with hp | hp
    · exact hp.imp_right (Or.imp_left (·.alter _ _))
    · exact .inr (.inl ((List.mem_singleton.mp hp) ▸
        Tally.lists_alter (UnaryKey.lookup_localTree hchild hresult) _ b.seenUnary))

theorem reaches_binary (hb : b.Coherent) {key : BinaryKey} (hleft : b.categories[key.left]? = some x)
    (hright : b.categories[key.right]? = some y) (hresult : b.categories[key.result]? = some c) :
    b.Reaches [.binary x y c] { b with seenBinary := b.seenBinary.add key 1 } where
  coherent := { hb with binaries := hb.binaries.alter (key.lookup_localTree hleft hright hresult) _ }
  keeps hold := hold
  tallied p := by
    obtain ⟨hle, hmod⟩ := Tally.seen_alter (t := b.seenBinary) (key.lookup_localTree hleft hright hresult)
      (Tally.adds_add 1) p
    rw [List.replicate_one, ← Tally.add] at hle hmod
    simp only [GrammarBuilder.tallied]
    exact ⟨by omega, by omega⟩
  lists p hp := by
    rcases hp with hp | hp
    · exact hp.imp_right (Or.imp_right (Or.imp_left (·.alter _ _)))
    · exact .inr (.inr (.inl ((List.mem_singleton.mp hp) ▸
        Tally.lists_alter (key.lookup_localTree hleft hright hresult) _ b.seenBinary)))

end

end GrammarBuilder

end Categorial
