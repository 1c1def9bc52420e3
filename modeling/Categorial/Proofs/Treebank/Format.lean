import Categorial.Proofs.Lists
import Categorial.Proofs.Text.Numeral
import Categorial.Proofs.Treebank.Pieces
set_option autoImplicit false

namespace Categorial

namespace BankTree

def leafKind : Field := Field.ofList ['L'] (by decide)

def branchKind : Field := Field.ofList ['T'] (by decide)

def openPieces (kind : Field) : List Piece := [.sign '(', .sign '<', .field kind]

def leafPieces (cat pos second word last : Field) : List Piece :=
  openPieces leafKind ++ [.field cat, .field pos, .field second, .field word, .field last, .sign '>', .sign ')']

/-- The part of a branch before its children. -/
def headPieces (cat head count : Field) : List Piece :=
  openPieces branchKind ++ [.field cat, .field head, .field count, .sign '>']

/-- The pieces are those of a leaf, or of a branch that says how many children follow. -/
inductive Denotes : List Piece → BankTree → Prop
  | leaf {cat : Field} {c : Category} (pos second word last : Field) : Category.read cat.val = .ok c →
      Denotes (leafPieces cat pos second word last)
        (.leaf c ⟨String.ofList word.val, String.ofList pos.val, some (String.ofList cat.val)⟩)
  | node {cat head count : Field} {c : Category} {n : Nat} {inner : List (List Piece)} {children : List BankTree} :
      Category.read cat.val = .ok c → Text.Numeral Text.sizeBound head.val n →
      Text.Numeral Text.sizeBound count.val children.length → hasRoom nodeBytes children.length = true →
      children ≠ [] → List.Forall₂ Denotes inner children →
      Denotes (headPieces cat head count ++ inner.flatten ++ [.sign ')']) (.node c n children)

/-- The pieces lead to a branch that announces more children than there can be room for, and what is before it is in
order. What is behind it, the category of a branch around it and the children of that one do not matter. -/
inductive Overdeclares : List Piece → Prop
  | opening {cat head count : Field} {n declared : Nat} : Text.Numeral Text.sizeBound head.val n →
      Text.Numeral Text.sizeBound count.val declared → hasRoom nodeBytes declared = false →
      Overdeclares (headPieces cat head count)
  | inside {cat head count : Field} {n declared : Nat} {inner : List (List Piece)} {children : List BankTree}
      {ps : List Piece} : Text.Numeral Text.sizeBound head.val n → Text.Numeral Text.sizeBound count.val declared →
      hasRoom nodeBytes declared = true → List.Forall₂ Denotes inner children → Overdeclares ps →
      Overdeclares (headPieces cat head count ++ (inner.flatten ++ ps))

section

variable {fuel : Nat} {s rest : List Char} {t : BankTree} {ts : List BankTree}

theorem readLeaf_ok_iff : readLeaf s = .ok (t, rest) ↔ ∃ cat pos second word last : Field, ∃ c,
    Takes [.field cat, .field pos, .field second, .field word, .field last, .sign '>', .sign ')'] s rest ∧
      Category.read cat.val = .ok c ∧
      t = .leaf c ⟨String.ofList word.val, String.ofList pos.val, some (String.ofList cat.val)⟩ := by
  simp only [takes_field, takes_sign (c := '>') rfl, takes_sign (c := ')') rfl, takes_nil]
  constructor
  · intro h
    obtain ⟨⟨cat, s₁⟩, hcat, h⟩ := except_bind_eq_ok.mp h
    obtain ⟨⟨pos, s₂⟩, hpos, h⟩ := except_bind_eq_ok.mp h
    obtain ⟨⟨second, s₃⟩, hsecond, h⟩ := except_bind_eq_ok.mp h
    obtain ⟨⟨word, s₄⟩, hword, h⟩ := except_bind_eq_ok.mp h
    obtain ⟨⟨last, s₅⟩, hlast, h⟩ := except_bind_eq_ok.mp h
    obtain ⟨s₆, hright, h⟩ := except_bind_eq_ok.mp h
    obtain ⟨s₇, hclose, h⟩ := except_bind_eq_ok.mp h
    obtain ⟨c, hread, h⟩ := except_bind_eq_ok.mp h
    cases h
    obtain ⟨cat, rfl⟩ := exists_field hcat
    obtain ⟨pos, rfl⟩ := exists_field hpos
    obtain ⟨second, rfl⟩ := exists_field hsecond
    obtain ⟨word, rfl⟩ := exists_field hword
    obtain ⟨last, rfl⟩ := exists_field hlast
    exact ⟨cat, pos, second, word, last, c, ⟨s₁, hcat, s₂, hpos, s₃, hsecond, s₄, hword, s₅, hlast, s₆, hright,
      rest, hclose, rfl⟩, hread, rfl⟩
  · rintro ⟨cat, pos, second, word, last, c, ⟨s₁, hcat, s₂, hpos, s₃, hsecond, s₄, hword, s₅, hlast, s₆, hright,
      s₇, hclose, rfl⟩, hread, rfl⟩
    simp [readLeaf, hcat, hpos, hsecond, hword, hlast, hright, hclose, hread, bind, Except.bind]

theorem readOpening_ok_iff {cat : List Char} {n declared : Nat} :
    readOpening s = .ok ((cat, n, declared), rest) ↔ ∃ cat' head count : Field,
      Takes [.field cat', .field head, .field count, .sign '>'] s rest ∧ cat = cat'.val ∧
        Text.Numeral Text.sizeBound head.val n ∧ Text.Numeral Text.sizeBound count.val declared := by
  simp only [takes_field, takes_sign (c := '>') rfl, takes_nil, ← Text.readNat_ok_iff]
  constructor
  · intro h
    obtain ⟨⟨cat, s₁⟩, hcat, h⟩ := except_bind_eq_ok.mp h
    obtain ⟨⟨head, s₂⟩, hhead, h⟩ := except_bind_eq_ok.mp h
    obtain ⟨⟨count, s₃⟩, hcount, h⟩ := except_bind_eq_ok.mp h
    obtain ⟨s₄, hright, h⟩ := except_bind_eq_ok.mp h
    obtain ⟨n, hn, h⟩ := except_bind_eq_ok.mp h
    obtain ⟨declared, hdeclared, h⟩ := except_bind_eq_ok.mp h
    cases h
    obtain ⟨cat, rfl⟩ := exists_field hcat
    obtain ⟨head, rfl⟩ := exists_field hhead
    obtain ⟨count, rfl⟩ := exists_field hcount
    exact ⟨cat, head, count, ⟨s₁, hcat, s₂, hhead, s₃, hcount, rest, hright, rfl⟩, rfl,
      except_mapError_eq_ok.mp hn, except_mapError_eq_ok.mp hdeclared⟩
  · rintro ⟨cat, head, count, ⟨s₁, hcat, s₂, hhead, s₃, hcount, _, hright, rfl⟩, rfl, hn, hdeclared⟩
    have hn' : (Text.readSize head.val).mapError (Malformed.headIndex (String.ofList head.val)) = .ok n :=
      except_mapError_eq_ok.mpr hn
    have hdeclared' : (Text.readSize count.val).mapError (Malformed.childCount (String.ofList count.val)) =
        .ok declared := except_mapError_eq_ok.mpr hdeclared
    simp [readOpening, hcat, hhead, hcount, hright, hn', hdeclared', bind, Except.bind]

-- Errors of the parts are errors of the whole.

theorem lift_eq_ok {α : Type} {x : Except Malformed α} {a : α} :
    (liftM x : Except Fault α) = .ok a ↔ x = .ok a := except_mapError_eq_ok

theorem lift_ne_noRoom {α : Type} {x : Except Malformed α} : (liftM x : Except Fault α) ≠ .error .noRoom := by
  cases x <;> nofun

/-- The part of a branch behind its letter. -/
def readBranch (fuel : Nat) (s : List Char) : Except Fault (BankTree × List Char) := do
  let ((cat, headIndex, declared), s) ← readOpening s
  if !hasRoom nodeBytes declared then throw .noRoom
  let (children, s) ← readChildren fuel s
  let s ← skipTo ')' s
  if children.length ≠ declared ∨ declared = 0 then
    throw (.malformed (.childrenDeclared (String.ofList cat) declared children.length))
  let c ← Category.read cat
  pure (node c headIndex children, s)

theorem readBranch_ok_iff : readBranch fuel s = .ok (t, rest) ↔ ∃ cat head count : Field, ∃ c n children mid mid',
    Takes [.field cat, .field head, .field count, .sign '>'] s mid ∧ Category.read cat.val = .ok c ∧
      Text.Numeral Text.sizeBound head.val n ∧ Text.Numeral Text.sizeBound count.val children.length ∧
      hasRoom nodeBytes children.length = true ∧ children ≠ [] ∧ readChildren fuel mid = .ok (children, mid') ∧
      Takes [.sign ')'] mid' rest ∧ t = .node c n children := by
  simp only [takes_sign (c := ')') rfl, takes_nil]
  constructor
  · intro h
    obtain ⟨⟨⟨cat, n, declared⟩, s₁⟩, hopening, h⟩ := except_bind_eq_ok.mp h
    obtain ⟨cat, head, count, htakes, rfl, hn, hdeclared⟩ := readOpening_ok_iff.mp (lift_eq_ok.mp hopening)
    by_cases hroom : hasRoom nodeBytes declared = true
    · simp only [hroom, Bool.not_true, Bool.false_eq_true, if_false] at h
      obtain ⟨⟨children, s₂⟩, hchildren, h⟩ := except_bind_eq_ok.mp h
      obtain ⟨s₃, hclose, h⟩ := except_bind_eq_ok.mp h
      by_cases hcounted : children.length ≠ declared ∨ declared = 0
      · simp only [if_pos hcounted] at h
        cases h
      · simp only [if_neg hcounted] at h
        obtain ⟨hlength, hpos⟩ := not_or.mp hcounted
        obtain ⟨c, hread, h⟩ := except_bind_eq_ok.mp h
        cases h
        obtain rfl := not_not.mp hlength
        exact ⟨cat, head, count, c, n, children, s₁, s₂, htakes, lift_eq_ok.mp hread, hn, hdeclared, hroom,
          List.length_pos_iff.mp (Nat.pos_of_ne_zero hpos), hchildren, ⟨rest, lift_eq_ok.mp hclose, rfl⟩, rfl⟩
    · simp only [Bool.not_eq_true _ ▸ hroom, Bool.not_false, if_true] at h
      cases h
  · rintro ⟨cat, head, count, c, n, children, s₁, s₂, htakes, hread, hn, hdeclared, hroom, hne, hchildren,
      ⟨_, hclose, rfl⟩, rfl⟩
    have hopening := readOpening_ok_iff.mpr ⟨cat, head, count, htakes, rfl, hn, hdeclared⟩
    simp [readBranch, lift_eq_ok.mpr hopening, hroom, hchildren, lift_eq_ok.mpr hclose, lift_eq_ok.mpr hread, hne,
      bind, Except.bind]

theorem readBranch_eq_noRoom_iff : readBranch fuel s = .error .noRoom ↔ ∃ cat head count : Field, ∃ n declared mid,
    Takes [.field cat, .field head, .field count, .sign '>'] s mid ∧ Text.Numeral Text.sizeBound head.val n ∧
      Text.Numeral Text.sizeBound count.val declared ∧ (hasRoom nodeBytes declared = false ∨
        hasRoom nodeBytes declared = true ∧ readChildren fuel mid = .error .noRoom) := by
  constructor
  · intro h
    obtain h | ⟨⟨⟨cat, n, declared⟩, mid⟩, hopening, h⟩ := except_bind_eq_error.mp h
    · exact absurd h lift_ne_noRoom
    obtain ⟨cat, head, count, htakes, rfl, hn, hdeclared⟩ := readOpening_ok_iff.mp (lift_eq_ok.mp hopening)
    refine ⟨cat, head, count, n, declared, mid, htakes, hn, hdeclared, ?_⟩
    by_cases hroom : hasRoom nodeBytes declared = true
    · simp only [hroom, Bool.not_true, Bool.false_eq_true, if_false] at h
      obtain h | ⟨⟨children, mid'⟩, _, h⟩ := except_bind_eq_error.mp h
      · exact .inr ⟨hroom, h⟩
      obtain h | ⟨_, _, h⟩ := except_bind_eq_error.mp h
      · exact absurd h lift_ne_noRoom
      split at h
      · cases h
      · obtain h | ⟨_, _, h⟩ := except_bind_eq_error.mp h
        · exact absurd h lift_ne_noRoom
        · cases h
    · exact .inl (Bool.not_eq_true _ ▸ hroom)
  · rintro ⟨cat, head, count, n, declared, mid, htakes, hn, hdeclared, h⟩
    have hopening := readOpening_ok_iff.mpr ⟨cat, head, count, htakes, rfl, hn, hdeclared⟩
    obtain hroom | ⟨hroom, hchildren⟩ := h
    · simp [readBranch, lift_eq_ok.mpr hopening, hroom, bind, Except.bind]
    · simp [readBranch, lift_eq_ok.mpr hopening, hroom, hchildren, bind, Except.bind]

theorem readKind_ok_iff {kind : List Char} :
    readKind s = .ok (kind, rest) ↔ ∃ kind' : Field, Takes (openPieces kind') s rest ∧ kind = kind'.val := by
  simp only [openPieces, takes_field, takes_sign (c := '(') rfl, takes_sign (c := '<') rfl, takes_nil]
  constructor
  · intro h
    obtain ⟨s₁, hopen, h⟩ := except_bind_eq_ok.mp h
    obtain ⟨s₂, hleft, h⟩ := except_bind_eq_ok.mp h
    obtain ⟨kind, rfl⟩ := exists_field h
    exact ⟨kind, ⟨s₁, hopen, s₂, hleft, rest, h, rfl⟩, rfl⟩
  · rintro ⟨kind, ⟨s₁, hopen, s₂, hleft, _, h, rfl⟩, rfl⟩
    simp [readKind, hopen, hleft, h, bind, Except.bind]

theorem readNode_succ (fuel : Nat) (s : List Char) : readNode (fuel + 1) s =
    (liftM (readKind s) >>= fun (kind, s) =>
      if kind = ['L'] then liftM (readLeaf s) else if kind = ['T'] then readBranch fuel s
      else throw (.malformed (.nodeKind (String.ofList kind)))) := by
  rw [readNode]
  rfl

/-- A node is a leaf or a branch by its letter; any other letter is an error of the text. -/
theorem readNode_of_takes {kind : Field} {mid : List Char} (h : Takes (openPieces kind) s mid) :
    readNode (fuel + 1) s = if kind.val = ['L'] then liftM (readLeaf mid) else if kind.val = ['T'] then
      readBranch fuel mid else throw (.malformed (.nodeKind (String.ofList kind.val))) := by
  rw [readNode_succ, lift_eq_ok.mpr (readKind_ok_iff.mpr ⟨kind, h, rfl⟩)]
  rfl

theorem readNode_of_takes_leaf {mid : List Char} (h : Takes (openPieces leafKind) s mid) :
    readNode (fuel + 1) s = liftM (readLeaf mid) := readNode_of_takes h

theorem readNode_of_takes_branch {mid : List Char} (h : Takes (openPieces branchKind) s mid) :
    readNode (fuel + 1) s = readBranch fuel mid := readNode_of_takes h

/-- What reading a node comes to, but for errors of the text: it is that of a leaf or of a branch. -/
theorem readNode_cases {r : Except Fault (BankTree × List Char)} (h : readNode (fuel + 1) s = r) :
    (∃ e, r = .error (.malformed e)) ∨
      (∃ mid, Takes (openPieces leafKind) s mid ∧ r = liftM (readLeaf mid)) ∨
      ∃ mid, Takes (openPieces branchKind) s mid ∧ r = readBranch fuel mid := by
  cases hkind : readKind s with
  | error e =>
    refine .inl ⟨e, ?_⟩
    rw [← h, readNode_succ, hkind]
    rfl
  | ok p =>
    obtain ⟨k, mid⟩ := p
    obtain ⟨kind, htakes, rfl⟩ := readKind_ok_iff.mp hkind
    rw [readNode_of_takes htakes] at h
    split at h
    · rename_i hleaf
      obtain rfl : kind = leafKind := Subtype.ext hleaf
      exact .inr (.inl ⟨mid, htakes, h.symm⟩)
    · split at h
      · rename_i hbranch
        obtain rfl : kind = branchKind := Subtype.ext hbranch
        exact .inr (.inr ⟨mid, htakes, h.symm⟩)
      · exact .inl ⟨_, h.symm⟩

theorem readNode_ok_iff : readNode (fuel + 1) s = .ok (t, rest) ↔ ∃ mid,
    (Takes (openPieces leafKind) s mid ∧ readLeaf mid = .ok (t, rest)) ∨
      (Takes (openPieces branchKind) s mid ∧ readBranch fuel mid = .ok (t, rest)) := by
  constructor
  · intro h
    obtain ⟨_, h⟩ | ⟨mid, htakes, h⟩ | ⟨mid, htakes, h⟩ := readNode_cases h
    · cases h
    · exact ⟨mid, .inl ⟨htakes, lift_eq_ok.mp h.symm⟩⟩
    · exact ⟨mid, .inr ⟨htakes, h.symm⟩⟩
  · rintro ⟨mid, ⟨htakes, h⟩ | ⟨htakes, h⟩⟩
    · rw [readNode_of_takes_leaf htakes, lift_eq_ok, h]
    · rw [readNode_of_takes_branch htakes, h]

theorem readNode_eq_noRoom_iff : readNode (fuel + 1) s = .error .noRoom ↔
    ∃ mid, Takes (openPieces branchKind) s mid ∧ readBranch fuel mid = .error .noRoom := by
  constructor
  · intro h
    obtain ⟨_, h⟩ | ⟨mid, htakes, h⟩ | ⟨mid, htakes, h⟩ := readNode_cases h
    · cases h
    · exact absurd h.symm lift_ne_noRoom
    · exact ⟨mid, htakes, h.symm⟩
  · rintro ⟨mid, htakes, h⟩
    rw [readNode_of_takes_branch htakes, h]

theorem readChildren_of_close (h : Text.trimStart s = ')' :: rest) (fuel : Nat) :
    readChildren fuel s = .ok ([], s) := by
  cases fuel with
  | zero => rfl
  | succ fuel => simp only [readChildren, h]

theorem readChildren_succ (h : ∀ rest, Text.trimStart s ≠ ')' :: rest) (fuel : Nat) : readChildren (fuel + 1) s =
    (readNode fuel s >>= fun (child, s) => readChildren fuel s >>= fun (children, s) =>
      pure (child :: children, s)) := by
  rw [readChildren]
  split
  · rename_i rest hclose
    exact absurd hclose (h rest)
  · rfl

end

-- What is read denotes the tree.

theorem denotes_of_read (fuel : Nat) :
    (∀ s t rest, readNode fuel s = .ok (t, rest) → ∃ ps, Denotes ps t ∧ Takes ps s rest) ∧
      ∀ s ts rest, readChildren fuel s = .ok (ts, rest) →
        ∃ inner, List.Forall₂ Denotes inner ts ∧ Takes inner.flatten s rest := by
  induction fuel with
  | zero =>
    constructor
    · intro s t rest h
      cases h
    · intro s ts rest h
      cases h
      exact ⟨[], .nil, .nil⟩
  | succ fuel ih =>
    obtain ⟨hnode, hchildren⟩ := ih
    constructor
    · intro s t rest h
      obtain ⟨mid, ⟨hopen, h⟩ | ⟨hopen, h⟩⟩ := readNode_ok_iff.mp h
      · obtain ⟨cat, pos, second, word, last, c, htakes, hread, rfl⟩ := readLeaf_ok_iff.mp h
        exact ⟨_, .leaf pos second word last hread, takes_append.mpr ⟨mid, hopen, htakes⟩⟩
      · obtain ⟨cat, head, count, c, n, children, mid₁, mid₂, hhead, hread, hn, hcount, hroom, hne, hinner, hclose,
          rfl⟩ := readBranch_ok_iff.mp h
        obtain ⟨inner, hdenotes, htakes⟩ := hchildren _ _ _ hinner
        refine ⟨_, .node hread hn hcount hroom hne hdenotes, ?_⟩
        exact takes_append.mpr ⟨mid₂, takes_append.mpr ⟨mid₁, takes_append.mpr ⟨mid, hopen, hhead⟩, htakes⟩, hclose⟩
    · intro s ts rest h
      by_cases hclose : ∃ rest, Text.trimStart s = ')' :: rest
      · obtain ⟨rest', hclose⟩ := hclose
        rw [readChildren_of_close hclose] at h
        cases h
        exact ⟨[], .nil, .nil⟩
      · rw [readChildren_succ fun rest' heq => hclose ⟨rest', heq⟩] at h
        obtain ⟨⟨child, mid⟩, hchild, h⟩ := except_bind_eq_ok.mp h
        obtain ⟨⟨children, mid'⟩, hrest, h⟩ := except_bind_eq_ok.mp h
        cases h
        obtain ⟨ps, hps, htakes⟩ := hnode _ _ _ hchild
        obtain ⟨inner, hinner, htakes'⟩ := hchildren _ _ _ hrest
        exact ⟨ps :: inner, .cons hps hinner, takes_append.mpr ⟨mid, htakes, htakes'⟩⟩

-- What denotes a tree is read, with fuel for every character.

theorem Denotes.exists_cons {ps : List Piece} {t : BankTree} (h : Denotes ps t) : ∃ ps', ps = .sign '(' :: ps' := by
  cases h with
  | leaf pos second word last _ => exact ⟨_, rfl⟩
  | node _ _ _ _ _ _ => exact ⟨_, rfl⟩

theorem not_close_of_takes {ps : List Piece} {s rest : List Char} (h : Takes (.sign '(' :: ps) s rest)
    (rest' : List Char) : Text.trimStart s ≠ ')' :: rest' := by
  obtain ⟨_, hskip, _⟩ := (takes_sign rfl).mp h
  intro heq
  rw [Category.eq_of_expect hskip] at heq
  exact absurd (List.head_eq_of_cons_eq heq) (by decide)

theorem readChildren_of_takes {inner : List (List Piece)} {children : List BankTree} {s mid rest : List Char}
    {fuel : Nat} (hread : ∀ child ∈ children, ∀ ps s rest fuel, Denotes ps child → Takes ps s rest → s.length ≤ fuel →
      readNode fuel s = .ok (child, rest)) (hinner : List.Forall₂ Denotes inner children)
    (htakes : Takes inner.flatten s mid) (hclose : Takes [.sign ')'] mid rest) (hfuel : s.length < fuel) :
    readChildren fuel s = .ok (children, mid) := by
  induction hinner generalizing s fuel with
  | nil =>
    obtain rfl := takes_nil.mp htakes
    obtain ⟨_, hskip, _⟩ := (takes_sign rfl).mp hclose
    exact readChildren_of_close (Category.eq_of_expect hskip) fuel
  | @cons ps child inner children hchild _ ih =>
    obtain ⟨mid', hps, hflatten⟩ := takes_append.mp htakes
    obtain ⟨fuel, rfl⟩ := Nat.exists_eq_add_one_of_ne_zero (Nat.ne_zero_of_lt hfuel)
    obtain ⟨ps, rfl⟩ := hchild.exists_cons
    have hshorter := hps.length_le
    rw [List.length_cons] at hshorter
    have hhead : readNode fuel s = .ok (child, mid') :=
      hread child (by simp) _ s mid' fuel hchild hps (Nat.le_of_lt_succ hfuel)
    have htail : readChildren fuel mid' = .ok (children, mid) :=
      ih (fun c hc => hread c (by simp [hc])) hflatten (by omega)
    rw [readChildren_succ (not_close_of_takes hps), hhead]
    simp [htail, bind, Except.bind]

theorem Denotes.reads {ps : List Piece} {t : BankTree} {s rest : List Char} {fuel : Nat} (hps : Denotes ps t)
    (htakes : Takes ps s rest) (hfuel : s.length ≤ fuel) : readNode fuel s = .ok (t, rest) := by
  induction t using BankTree.induction generalizing ps s rest fuel with
  | leaf c token =>
    have hlength := htakes.length_le
    cases hps with
    | @leaf cat _ pos second word last hcat =>
      have hpieces : (leafPieces cat pos second word last).length = 10 := rfl
      obtain ⟨fuel, rfl⟩ : ∃ n, fuel = n + 1 := ⟨fuel - 1, by omega⟩
      obtain ⟨mid, hopen, hfields⟩ := takes_append.mp htakes
      exact readNode_ok_iff.mpr ⟨mid, .inl ⟨hopen,
        readLeaf_ok_iff.mpr ⟨cat, pos, second, word, last, c, hfields, hcat, rfl⟩⟩⟩
  | node c n children ih =>
    cases hps with
    | @node cat head count _ _ inner _ hcat hn hcount hroom hne hinner =>
      obtain ⟨mid₂, htakes, hclose⟩ := takes_append.mp htakes
      obtain ⟨mid₁, hhead, hflatten⟩ := takes_append.mp htakes
      have hlength := hhead.length_le
      have hpieces : (headPieces cat head count).length = 7 := rfl
      obtain ⟨fuel, rfl⟩ : ∃ n, fuel = n + 1 := ⟨fuel - 1, by omega⟩
      obtain ⟨mid, hopen, hfields⟩ := takes_append.mp hhead
      have hchildren : readChildren fuel mid₁ = .ok (children, mid₂) :=
        readChildren_of_takes (fun child hchild _ _ _ _ => ih child hchild) hinner hflatten hclose (by omega)
      exact readNode_ok_iff.mpr ⟨mid, .inr ⟨hopen, readBranch_ok_iff.mpr ⟨cat, head, count, c, n, children, mid₁, mid₂,
        hfields, hcat, hn, hcount, hroom, hne, hchildren, hclose, rfl⟩⟩⟩

theorem read_ok_iff {s : List Char} {t : BankTree} : read s = .ok t ↔ ∃ ps, Denotes ps t ∧ Spaced ps s := by
  constructor
  · intro h
    obtain ⟨⟨t', rest⟩, hread, h⟩ := except_bind_eq_ok.mp h
    simp only at h
    split at h
    · rename_i hempty
      cases h
      obtain ⟨ps, hps, htakes⟩ := (denotes_of_read _).1 _ _ _ hread
      exact ⟨ps, hps, rest, htakes, Text.trimStart_eq_nil_iff.mp (List.isEmpty_iff.mp hempty)⟩
    · cases h
  · rintro ⟨ps, hps, rest, htakes, hgap⟩
    have hnode : readNode (s.length + 1) s = .ok (t, rest) := hps.reads htakes (Nat.le_succ _)
    simp [read, hnode, Text.trimStart_eq_nil_iff.mpr hgap, bind, Except.bind]

-- Where a branch announces too many children.

theorem overdeclares_of_read (fuel : Nat) :
    (∀ s, readNode fuel s = .error .noRoom → ∃ ps rest, Overdeclares ps ∧ Takes ps s rest) ∧
      ∀ s, readChildren fuel s = .error .noRoom → ∃ inner children ps rest, List.Forall₂ Denotes inner children ∧
        Overdeclares ps ∧ Takes (inner.flatten ++ ps) s rest := by
  induction fuel with
  | zero => exact ⟨nofun, nofun⟩
  | succ fuel ih =>
    obtain ⟨hnode, hchildren⟩ := ih
    constructor
    · intro s h
      obtain ⟨mid, hopen, h⟩ := readNode_eq_noRoom_iff.mp h
      obtain ⟨cat, head, count, n, declared, mid₁, hhead, hn, hdeclared, hroom | ⟨hroom, h⟩⟩ :=
        readBranch_eq_noRoom_iff.mp h
      · exact ⟨_, mid₁, .opening hn hdeclared hroom, takes_append.mpr ⟨mid, hopen, hhead⟩⟩
      · obtain ⟨inner, children, ps, rest, hdenotes, hps, htakes⟩ := hchildren _ h
        exact ⟨_, rest, .inside hn hdeclared hroom hdenotes hps,
          takes_append.mpr ⟨mid₁, takes_append.mpr ⟨mid, hopen, hhead⟩, htakes⟩⟩
    · intro s h
      by_cases hclose : ∃ rest, Text.trimStart s = ')' :: rest
      · obtain ⟨rest', hclose⟩ := hclose
        rw [readChildren_of_close hclose] at h
        cases h
      · rw [readChildren_succ fun rest' heq => hclose ⟨rest', heq⟩] at h
        obtain h | ⟨⟨child, mid⟩, hchild, h⟩ := except_bind_eq_error.mp h
        · obtain ⟨ps, rest, hps, htakes⟩ := hnode _ h
          exact ⟨[], [], ps, rest, .nil, hps, htakes⟩
        · obtain h | ⟨_, _, h⟩ := except_bind_eq_error.mp h
          · obtain ⟨ps, hdenotes, htakes⟩ := (denotes_of_read fuel).1 _ _ _ hchild
            obtain ⟨inner, children, qs, rest, hinner, hqs, htakes'⟩ := hchildren _ h
            refine ⟨ps :: inner, child :: children, qs, rest, .cons hdenotes hinner, hqs, ?_⟩
            rw [List.flatten_cons, List.append_assoc]
            exact takes_append.mpr ⟨mid, htakes, htakes'⟩
          · cases h

theorem readChildren_of_overdeclares {inner : List (List Piece)} {children : List BankTree} {ps : List Piece}
    {s rest : List Char} {fuel : Nat} (hread : ∀ s fuel, Takes ps s rest → s.length ≤ fuel →
      readNode fuel s = .error .noRoom) (hps : ∃ ps', ps = .sign '(' :: ps')
    (hinner : List.Forall₂ Denotes inner children) (htakes : Takes (inner.flatten ++ ps) s rest)
    (hfuel : s.length < fuel) : readChildren fuel s = .error .noRoom := by
  obtain ⟨ps', rfl⟩ := hps
  induction hinner generalizing s fuel with
  | nil =>
    obtain ⟨fuel, rfl⟩ := Nat.exists_eq_add_one_of_ne_zero (Nat.ne_zero_of_lt hfuel)
    rw [readChildren_succ (not_close_of_takes htakes), hread s fuel htakes (Nat.le_of_lt_succ hfuel)]
    rfl
  | @cons qs child inner children hchild _ ih =>
    rw [List.flatten_cons, List.append_assoc] at htakes
    obtain ⟨mid, hqs, hflatten⟩ := takes_append.mp htakes
    obtain ⟨fuel, rfl⟩ := Nat.exists_eq_add_one_of_ne_zero (Nat.ne_zero_of_lt hfuel)
    have hhead : readNode fuel s = .ok (child, mid) := hchild.reads hqs (Nat.le_of_lt_succ hfuel)
    obtain ⟨qs, rfl⟩ := hchild.exists_cons
    have hshorter := hqs.length_le
    rw [List.length_cons] at hshorter
    rw [readChildren_succ (not_close_of_takes hqs), hhead]
    have htail : readChildren fuel mid = .error .noRoom := ih (by omega) hflatten
    simp [htail, bind, Except.bind]

theorem Overdeclares.exists_cons {ps : List Piece} (h : Overdeclares ps) : ∃ ps', ps = .sign '(' :: ps' := by
  cases h with
  | opening _ _ _ => exact ⟨_, rfl⟩
  | inside _ _ _ _ _ => exact ⟨_, rfl⟩

theorem Overdeclares.reads {ps : List Piece} {s rest : List Char} {fuel : Nat} (hps : Overdeclares ps)
    (htakes : Takes ps s rest) (hfuel : s.length ≤ fuel) : readNode fuel s = .error .noRoom := by
  induction hps generalizing s fuel with
  | @opening cat head count n declared hn hdeclared hroom =>
    have hlength := htakes.length_le
    have hpieces : (headPieces cat head count).length = 7 := rfl
    obtain ⟨fuel, rfl⟩ : ∃ n, fuel = n + 1 := ⟨fuel - 1, by omega⟩
    obtain ⟨mid, hopen, hfields⟩ := takes_append.mp htakes
    exact readNode_eq_noRoom_iff.mpr ⟨mid, hopen, readBranch_eq_noRoom_iff.mpr
      ⟨cat, head, count, n, declared, rest, hfields, hn, hdeclared, .inl hroom⟩⟩
  | @inside cat head count n declared inner children ps hn hdeclared hroom hinner hps ih =>
    obtain ⟨mid₁, hhead, hflatten⟩ := takes_append.mp htakes
    have hlength := hhead.length_le
    have hpieces : (headPieces cat head count).length = 7 := rfl
    obtain ⟨fuel, rfl⟩ : ∃ n, fuel = n + 1 := ⟨fuel - 1, by omega⟩
    obtain ⟨mid, hopen, hfields⟩ := takes_append.mp hhead
    have hchildren : readChildren fuel mid₁ = .error .noRoom :=
      readChildren_of_overdeclares (fun s fuel => ih) hps.exists_cons hinner hflatten (by omega)
    exact readNode_eq_noRoom_iff.mpr ⟨mid, hopen, readBranch_eq_noRoom_iff.mpr
      ⟨cat, head, count, n, declared, mid₁, hfields, hn, hdeclared, .inr ⟨hroom, hchildren⟩⟩⟩

theorem read_eq_noRoom_iff {s : List Char} :
    read s = .error .noRoom ↔ ∃ ps rest, Overdeclares ps ∧ Takes ps s rest := by
  constructor
  · intro h
    obtain h | ⟨⟨t, rest⟩, _, h⟩ := except_bind_eq_error.mp h
    · exact (overdeclares_of_read _).1 s h
    · simp only at h
      split at h
      · cases h
      · cases h
  · rintro ⟨ps, rest, hps, htakes⟩
    have hnode : readNode (s.length + 1) s = .error .noRoom := hps.reads htakes (Nat.le_succ _)
    simp [read, hnode, bind, Except.bind]

section

variable {P : BankTree → Prop}

/-- What holds of leaves, and of a node whose children have it, holds of every tree of a treebank. -/
theorem read_induction
    (leaf : ∀ {cat : List Char} {c : Category} {word pos : String}, Category.read cat = .ok c →
      P (.leaf c ⟨word, pos, some (String.ofList cat)⟩))
    (node : ∀ {cat : List Char} {c : Category} {head : Nat} {children : List BankTree}, Category.read cat = .ok c →
      (∀ t ∈ children, P t) → P (.node c head children))
    {s : List Char} {t : BankTree} (h : read s = .ok t) : P t := by
  obtain ⟨ps, hps, -⟩ := read_ok_iff.mp h
  clear h
  induction t using BankTree.induction generalizing ps with
  | leaf c token =>
    cases hps with
    | leaf pos second word last hcat => exact leaf hcat
  | node c n children ih =>
    cases hps with
    | node hcat _ _ _ _ hinner =>
      refine node hcat fun child hchild => ?_
      obtain ⟨ps, -, hps⟩ := mem_left_of_forall₂ hinner hchild
      exact ih child hchild ps hps

end

end BankTree

end Categorial
