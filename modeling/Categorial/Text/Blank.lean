set_option autoImplicit false

namespace Categorial.Text

def isBlank (c : Char) : Bool :=
  let n := c.toNat
  (9 ≤ n && n ≤ 13) || n == 0x20 || n == 0x85 || n == 0xA0 || n == 0x1680 ||
    (0x2000 ≤ n && n ≤ 0x200A) || n == 0x2028 || n == 0x2029 || n == 0x202F || n == 0x205F ||
    n == 0x3000

def trimStart (s : List Char) : List Char := s.dropWhile isBlank

def trimEnd (s : List Char) : List Char := (s.reverse.dropWhile isBlank).reverse

def trim (s : List Char) : List Char := trimEnd (trimStart s)

theorem trimStart_cons_of_not_isBlank {c : Char} (s : List Char) (h : isBlank c = false) :
    trimStart (c :: s) = c :: s := by simp [trimStart, h]

/-- The text is cut at each separator, which is dropped: one piece more than there are separators. -/
def splitOn (sep : Char) : List Char → List (List Char)
  | [] => [[]]
  | c :: s =>
    if c = sep then [] :: splitOn sep s
    else match splitOn sep s with
      | [] => [[c]]
      | piece :: pieces => (c :: piece) :: pieces

theorem splitOn_ne_nil (sep : Char) (s : List Char) : splitOn sep s ≠ [] := by
  cases s with
  | nil => simp [splitOn]
  | cons c s =>
    rw [splitOn]
    split
    · simp
    · split <;> simp

/-- At most three pieces: the third keeps its separators. -/
def splitThree (sep : Char) (s : List Char) : List (List Char) :=
  match splitOn sep s with
  | a :: b :: c :: rest => [a, b, (c :: rest).intersperse [sep] |>.flatten]
  | pieces => pieces

/-- `current` is the field being read, its characters in reverse order. -/
def fieldsFrom (current : List Char) : List Char → List (List Char)
  | [] => if current.isEmpty then [] else [current.reverse]
  | c :: s =>
    if isBlank c then
      if current.isEmpty then fieldsFrom [] s else current.reverse :: fieldsFrom [] s
    else fieldsFrom (c :: current) s

def fields (s : List Char) : List (List Char) := fieldsFrom [] s

@[simp] theorem fields_nil : fields [] = [] := rfl

theorem fields_cons_of_isBlank {c : Char} (s : List Char) (h : isBlank c = true) :
    fields (c :: s) = fields s := by simp [fields, fieldsFrom, h]

def join (sep : List Char) (pieces : List (List Char)) : List Char :=
  (pieces.intersperse sep).flatten

end Categorial.Text
