import Categorial.Text.Blank
set_option autoImplicit false

namespace Categorial.Text

def dropReturn (line : List Char) : List Char :=
  match line.reverse with
  | '\r' :: rest => rest.reverse
  | _ => line

/-- `current` is the line being read, reversed. What follows the last line feed is a line of its own,
unless it is empty, and keeps its carriage return. -/
def linesFrom (current : List Char) : List Char → List (List Char)
  | [] => if current.isEmpty then [] else [current.reverse]
  | '\n' :: s => dropReturn current.reverse :: linesFrom [] s
  | c :: s => linesFrom (c :: current) s

def lines (s : List Char) : List (List Char) := linesFrom [] s

abbrev Line := Option (List Char)

def linesOfString (s : String) : List Line := (lines s.toList).map some

/-- The same cut on bytes that are not text as a whole. -/
def byteLinesFrom (current : List UInt8) : List UInt8 → List (List UInt8)
  | [] => if current.isEmpty then [] else [current.reverse]
  | b :: s =>
    if b = 10 then
      (match current with
        | 13 :: rest => rest.reverse
        | _ => current.reverse) :: byteLinesFrom [] s
    else byteLinesFrom (b :: current) s

def linesOfBytes (bytes : ByteArray) : List Line :=
  match String.fromUTF8? bytes with
  | some s => linesOfString s
  | none => (byteLinesFrom [] bytes.toList).map fun line =>
      (String.fromUTF8? ⟨line.toArray⟩).map String.toList

end Categorial.Text
