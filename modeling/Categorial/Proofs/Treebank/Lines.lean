import Categorial.Proofs.Treebank.Format
set_option autoImplicit false

namespace Categorial

namespace BankTree

-- A character of fuel for every character of the text is enough.

section

variable {fuel fuel' : Nat} {s rest : List Char} {t : BankTree}

theorem lt_of_readNode (h : readNode fuel s = .ok (t, rest)) : rest.length < s.length := by
  obtain ⟨ps, hps, htakes⟩ := (denotes_of_read fuel).1 s t rest h
  obtain ⟨ps, rfl⟩ := hps.exists_cons
  have hle := htakes.length_le
  rw [List.length_cons] at hle
  omega

theorem readBranch_congr
    (h : ∀ mid : List Char, mid.length < s.length → readChildren fuel mid = readChildren fuel' mid) :
    readBranch fuel s = readBranch fuel' s := by
  refine except_bind_congr fun ((cat, n, declared), mid) hopening => ?_
  obtain ⟨_, _, _, htakes, _⟩ := readOpening_ok_iff.mp (lift_eq_ok.mp hopening)
  have hle := htakes.length_le
  simp only [List.length_cons] at hle
  have hchildren : readChildren fuel mid = readChildren fuel' mid := h mid (by omega)
  simp only [hchildren]

theorem read_fuel_succ (fuel : Nat) :
    (∀ s : List Char, s.length ≤ fuel → readNode (fuel + 1) s = readNode fuel s) ∧
      ∀ s : List Char, s.length < fuel → readChildren (fuel + 1) s = readChildren fuel s := by
  induction fuel with
  | zero =>
    constructor
    · intro s hs
      obtain rfl := List.length_eq_zero_iff.mp (Nat.le_zero.mp hs)
      rfl
    · exact fun s hs => absurd hs (Nat.not_lt_zero _)
  | succ fuel ih =>
    obtain ⟨hnode, hchildren⟩ := ih
    constructor
    · intro s hs
      rw [readNode_succ, readNode_succ]
      refine except_bind_congr ?_
      rintro ⟨kind, mid⟩ hkind
      obtain ⟨_, htakes, _⟩ := readKind_ok_iff.mp (lift_eq_ok.mp hkind)
      have hle := htakes.length_le
      simp only [openPieces, List.length_cons] at hle
      have hbranch : readBranch (fuel + 1) mid = readBranch fuel mid :=
        readBranch_congr fun mid hmid => hchildren mid (by omega)
      simp only [hbranch]
    · intro s hs
      by_cases hclose : ∃ rest, Text.trimStart s = ')' :: rest
      · obtain ⟨rest, hclose⟩ := hclose
        rw [readChildren_of_close hclose, readChildren_of_close hclose]
      · have hopen : ∀ rest, Text.trimStart s ≠ ')' :: rest := fun rest heq => hclose ⟨rest, heq⟩
        rw [readChildren_succ hopen, readChildren_succ hopen, hnode s (Nat.le_of_lt_succ hs)]
        refine except_bind_congr ?_
        rintro ⟨child, mid⟩ hchild
        have hmid := lt_of_readNode hchild
        have hrest : readChildren (fuel + 1) mid = readChildren fuel mid := hchildren mid (by omega)
        simp only [hrest]

theorem readNode_eq_of_le (h : s.length ≤ fuel) : readNode fuel s = readNode s.length s := by
  induction fuel, h using Nat.le_induction with
  | base => rfl
  | succ fuel h ih => rw [(read_fuel_succ fuel).1 s h, ih]

end

-- Lines that are written.

theorem isFieldChar_of_isFeatureChar {c : Char} (h : Category.isFeatureChar c = true) : isFieldChar c = true := by
  have hblank := (Category.visible_of_isFeatureChar h).not_isBlank
  have hleft : c ≠ '<' := by
    rintro rfl
    cases h
  have hright : c ≠ '>' := by
    rintro rfl
    cases h
  simp [isFieldChar, hblank, hleft, hright]

/-- The text of a category as a field. -/
def categoryField {c : Category} (hc : c.Proper) : Field where
  val := c.chars
  property := ⟨(Category.denotes_chars hc).ne_nil,
    (Category.denotes_chars hc).forall_mem (fun _ => isFieldChar_of_isFeatureChar) (List.all_eq_true.mp (by decide))⟩

def numberField (n : Nat) : Field where
  val := Text.natDigits n
  property := ⟨Text.natDigits_ne_nil n, fun c hc => isFieldChar_of_isFeatureChar <| by
    rw [Category.isFeatureChar, Char.isAlphanum, Bool.or_eq_true]
    exact .inr (Text.isDigit_of_mem_natDigits hc)⟩

section

variable {ps : List Piece} {s rest : List Char} {t : BankTree}

theorem isFieldChar_space : isFieldChar ' ' = false := rfl

theorem isFieldChar_right : isFieldChar '>' = false := rfl

theorem Takes.sign_cons {c : Char} (h : Takes ps s rest) : Takes (.sign c :: ps) (c :: s) rest := .sign Text.gap_nil h

/-- A field behind a blank, with a blank or a bracket behind it. -/
theorem Takes.field_cons {c : Char} {f : Field} (hc : isFieldChar c = false) (h : Takes ps (c :: s) rest) :
    Takes (.field f :: ps) (' ' :: (f.val ++ c :: s)) rest :=
  .field Text.gap_space (by simpa using hc) h

theorem Takes.open_cons {gap : List Char} {kind : Field} (hgap : Text.Gap gap) (h : Takes ps (' ' :: s) rest) :
    Takes (.sign '(' :: .sign '<' :: .field kind :: ps) (gap ++ '(' :: '<' :: (kind.val ++ ' ' :: s)) rest := by
  have hend : ∀ c ∈ (' ' :: s).head?, isFieldChar c = false := by
    intro c hc
    cases hc
    exact isFieldChar_space
  exact .sign hgap (.sign_cons (.field Text.gap_nil hend h))

-- The equations of a line, by evaluation: to unfold it takes long, because of the literals in it.

theorem line_leaf (c : Category) (t : Token) : line (.leaf c t) =
    "(<L ".toList ++ (t.gold.getD c.text).toList ++ ' ' :: t.pos.toList ++ ' ' :: t.pos.toList ++
      ' ' :: t.word.toList ++ ' ' :: (t.gold.getD c.text).toList ++ ">)".toList := rfl

theorem line_node (c : Category) (head : Nat) (children : List BankTree) : line (.node c head children) =
    "(<T ".toList ++ c.chars ++ ' ' :: Text.natDigits head ++ ' ' :: Text.natDigits children.length ++
      '>' :: linesOf children ++ " )".toList := rfl

theorem linesOf_cons (t : BankTree) (ts : List BankTree) : linesOf (t :: ts) = ' ' :: t.line ++ linesOf ts := rfl

/-- The line of a tree is made of pieces that denote the tree. -/
def Written (t : BankTree) : Prop :=
  ∃ ps, Denotes ps t ∧ ∀ gap rest, Text.Gap gap → Takes ps (gap ++ t.line ++ rest) rest

theorem exists_linesOf {children : List BankTree} (h : ∀ child ∈ children, Written child) :
    ∃ inner, List.Forall₂ Denotes inner children ∧ ∀ rest, Takes inner.flatten (linesOf children ++ rest) rest := by
  induction children with
  | nil => exact ⟨[], .nil, fun rest => .nil⟩
  | cons child children ih =>
    obtain ⟨ps, hps, htakes⟩ := h child (by simp)
    obtain ⟨inner, hinner, hflatten⟩ := ih fun c hc => h c (by simp [hc])
    refine ⟨ps :: inner, .cons hps hinner, fun rest => ?_⟩
    have hline : linesOf (child :: children) ++ rest = [' '] ++ child.line ++ (linesOf children ++ rest) := by
      simp [linesOf_cons]
    rw [hline]
    exact takes_append.mpr ⟨_, htakes _ _ Text.gap_space, hflatten rest⟩

theorem written_leaf {c : Category} (cat pos word : Field) (hcat : Category.read cat.val = .ok c) :
    Written (.leaf c ⟨String.ofList word.val, String.ofList pos.val, some (String.ofList cat.val)⟩) := by
  refine ⟨_, .leaf pos pos word cat hcat, fun gap rest hgap => ?_⟩
  have hline : gap ++
      line (.leaf c ⟨String.ofList word.val, String.ofList pos.val, some (String.ofList cat.val)⟩) ++ rest =
        gap ++ '(' :: '<' :: (leafKind.val ++ ' ' :: (cat.val ++ ' ' :: (pos.val ++ ' ' :: (pos.val ++
          ' ' :: (word.val ++ ' ' :: (cat.val ++ '>' :: ')' :: rest)))))) := by
    simp [line_leaf, leafKind, Field.ofList]
  rw [hline]
  exact .open_cons hgap (.field_cons isFieldChar_space (.field_cons isFieldChar_space (.field_cons isFieldChar_space
    (.field_cons isFieldChar_space (.field_cons isFieldChar_right (.sign_cons (.sign_cons .nil)))))))

theorem written_node {c : Category} {n : Nat} {children : List BankTree} (hc : c.Proper) (hn : n ≤ Text.sizeBound)
    (hcount : children.length ≤ Text.sizeBound) (hroom : hasRoom nodeBytes children.length = true)
    (hne : children ≠ []) (hchildren : ∀ child ∈ children, Written child) : Written (.node c n children) := by
  obtain ⟨inner, hdenotes, hflatten⟩ := exists_linesOf hchildren
  refine ⟨_, @Denotes.node (categoryField hc) (numberField n) (numberField children.length) c n inner children
    (Category.read_chars hc) (Text.numeral_natDigits hn) (Text.numeral_natDigits hcount) hroom hne hdenotes,
    fun gap rest hgap => ?_⟩
  have hline : gap ++ line (.node c n children) ++ rest = gap ++ '(' :: '<' :: (branchKind.val ++ ' ' ::
      ((categoryField hc).val ++ ' ' :: ((numberField n).val ++ ' ' :: ((numberField children.length).val ++
        '>' :: (linesOf children ++ ([' '] ++ ')' :: rest)))))) := by
    simp [line_node, branchKind, Field.ofList, categoryField, numberField]
  have hhead : Takes (headPieces (categoryField hc) (numberField n) (numberField children.length))
      (gap ++ line (.node c n children) ++ rest) (linesOf children ++ ([' '] ++ ')' :: rest)) := by
    rw [hline]
    exact .open_cons hgap (.field_cons isFieldChar_space (.field_cons isFieldChar_space
      (.field_cons isFieldChar_right (.sign_cons .nil))))
  exact takes_append.mpr ⟨_, takes_append.mpr ⟨_, hhead, hflatten _⟩, .sign Text.gap_space .nil⟩

/-- A word whose gold category is spelled as categories are. -/
theorem written_word {c : Category} (hc : c.Proper) (pos word : Field) :
    Written (.leaf c ⟨String.ofList word.val, String.ofList pos.val, some c.text⟩) :=
  written_leaf (categoryField hc) pos word (Category.read_chars hc)

theorem written_pair {c : Category} {n : Nat} {left right : BankTree} (hc : c.Proper) (hn : n ≤ Text.sizeBound)
    (hl : Written left) (hr : Written right) : Written (.node c n [left, right]) :=
  written_node hc hn (by simp [Text.sizeBound]) rfl (List.cons_ne_nil _ _)
    (List.forall_mem_cons.mpr ⟨hl, List.forall_mem_singleton.mpr hr⟩)

theorem Denotes.written (h : Denotes ps t) : Written t := by
  induction t using BankTree.induction generalizing ps with
  | leaf c token =>
    cases h with
    | leaf pos _ word _ hcat => exact written_leaf _ pos word hcat
  | node c n children ih =>
    cases h with
    | node hcat hn hcount hroom hne hinner =>
      refine written_node (Category.proper_of_read hcat) hn.le hcount.le hroom hne fun child hchild => ?_
      obtain ⟨ps, -, hps⟩ := mem_left_of_forall₂ hinner hchild
      exact ih child hchild hps

theorem Written.read_line (h : Written t) : read t.line = .ok t := by
  obtain ⟨ps, hps, htakes⟩ := h
  have hline := htakes [] [] Text.gap_nil
  rw [List.nil_append, List.append_nil] at hline
  exact read_ok_iff.mpr ⟨ps, hps, [], hline, Text.gap_nil⟩

theorem read_line_of_read (h : read s = .ok t) : read t.line = .ok t := by
  obtain ⟨ps, hps, _⟩ := read_ok_iff.mp h
  exact hps.written.read_line

end

/-- A text is read as a tree exactly if it is made of pieces that denote the tree, and breaks reading off exactly if it
leads to a branch that announces more children than there can be room for; any other text is an error. Whatever the
text is, reading ends before the fuel does; and the line of a tree that was read is read as the tree. -/
theorem reads_exactly (s : List Char) :
    (∀ t, read s = .ok t ↔ ∃ ps, Denotes ps t ∧ Spaced ps s) ∧
      (read s = .error .noRoom ↔ ∃ ps rest, Overdeclares ps ∧ Takes ps s rest) ∧
      (∀ fuel, s.length ≤ fuel → readNode fuel s = readNode s.length s) ∧
      ∀ t, read s = .ok t → read t.line = .ok t :=
  ⟨fun _ => read_ok_iff, read_eq_noRoom_iff, fun _ => readNode_eq_of_le, fun _ => read_line_of_read⟩

namespace OneWord

/-- A node over a word, with gaps where they may be and none where they need not. -/
def text : List Char := "( <T NP 0 +1>(<L NP\tNN  NNP dog NP >)\n)".toList

def tree : BankTree := .node (.atom "NP" none) 0 [.leaf (.atom "NP" none) ⟨"dog", "NN", some "NP"⟩]

def np : Field := Field.ofList ['N', 'P'] (by decide)

def head : List Piece :=
  headPieces np (Field.ofList ['0'] (by decide)) (Field.ofList ['+', '1'] (by decide))

def word : List Piece :=
  leafPieces np (Field.ofList ['N', 'N'] (by decide)) (Field.ofList ['N', 'N', 'P'] (by decide))
    (Field.ofList ['d', 'o', 'g'] (by decide)) np

theorem denotes_tree : Denotes (head ++ [word].flatten ++ [.sign ')']) tree := by
  have hcat : Category.read np.val = .ok (.atom "NP" none) := rfl
  exact .node hcat (Text.readNat_ok_iff.mp rfl) (Text.readNat_ok_iff.mp rfl) (by decide)
    (List.cons_ne_nil _ _)
    (.cons (.leaf _ _ _ _ hcat) .nil)

theorem spaced_text : Spaced (head ++ [word].flatten ++ [.sign ')']) text := by
  have hhead : Takes head text "(<L NP\tNN  NNP dog NP >)\n)".toList :=
    (takes_sign rfl).mpr ⟨_, rfl, (takes_sign rfl).mpr ⟨_, rfl, takes_field.mpr ⟨_, rfl, takes_field.mpr ⟨_, rfl,
      takes_field.mpr ⟨_, rfl, takes_field.mpr ⟨_, rfl, (takes_sign rfl).mpr ⟨_, rfl, .nil⟩⟩⟩⟩⟩⟩⟩
  have hword : Takes [word].flatten "(<L NP\tNN  NNP dog NP >)\n)".toList "\n)".toList :=
    (takes_sign rfl).mpr ⟨_, rfl, (takes_sign rfl).mpr ⟨_, rfl, takes_field.mpr ⟨_, rfl, takes_field.mpr ⟨_, rfl,
      takes_field.mpr ⟨_, rfl, takes_field.mpr ⟨_, rfl, takes_field.mpr ⟨_, rfl, takes_field.mpr ⟨_, rfl,
        (takes_sign rfl).mpr ⟨_, rfl, (takes_sign rfl).mpr ⟨_, rfl, .nil⟩⟩⟩⟩⟩⟩⟩⟩⟩⟩
  have hclose : Takes [.sign ')'] "\n)".toList [] := (takes_sign rfl).mpr ⟨_, rfl, .nil⟩
  exact ⟨[], takes_append.mpr ⟨_, takes_append.mpr ⟨_, hhead, hword⟩, hclose⟩, Text.gap_nil⟩

/-- A branch without children that announces as many as there are numbers of 64 bits. -/
def crowd : List Char := "(<T S 0 18446744073709551615>)".toList

def most : Field := Field.ofList (Text.natDigits 18446744073709551615) (by decide)

theorem overdeclares_crowd : ∃ ps rest, Overdeclares ps ∧ Takes ps crowd rest := by
  have htakes : Takes (headPieces (Field.ofList ['S'] (by decide)) (Field.ofList ['0'] (by decide)) most) crowd
      [')'] :=
    (takes_sign rfl).mpr ⟨_, rfl, (takes_sign rfl).mpr ⟨_, rfl, takes_field.mpr ⟨_, rfl, takes_field.mpr ⟨_, rfl,
      takes_field.mpr ⟨_, rfl, takes_field.mpr ⟨_, rfl, (takes_sign rfl).mpr ⟨_, rfl, .nil⟩⟩⟩⟩⟩⟩⟩
  have hhead : Text.Numeral Text.sizeBound ['0'] 0 := Text.readNat_ok_iff.mp rfl
  have hle : 18446744073709551615 ≤ Text.sizeBound := by decide
  have hcount : Text.Numeral Text.sizeBound most.val 18446744073709551615 := Text.numeral_natDigits hle
  exact ⟨_, _, .opening hhead hcount (by decide), htakes⟩

theorem reads_exactly_text :
    read text = .ok tree ∧ read tree.line = .ok tree ∧ read crowd = .error .noRoom := by
  obtain ⟨hdenotes, -, -, hline⟩ := reads_exactly text
  have hread : read text = .ok tree := (hdenotes tree).mpr ⟨_, denotes_tree, spaced_text⟩
  exact ⟨hread, hline tree hread, (reads_exactly crowd).2.1.mpr overdeclares_crowd⟩

end OneWord

end BankTree

end Categorial
