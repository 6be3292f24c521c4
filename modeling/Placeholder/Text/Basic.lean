/-! # Characters and texts

The characters that count as white space and the cutting of them off the ends of a text, and the pieces of a text
between separators. Every function on texts is its function on characters, so that laws are proved on lists. -/

namespace Placeholder.Text

/-! ### White space -/

/-- A set of characters, as the first and the last code point of each of its runs. -/
abbrev Ranges := List (Nat × Nat)

/-- Whether a character lies in one of the runs. -/
def Ranges.has (ranges : Ranges) (c : Char) : Bool :=
  ranges.any fun run => run.1 ≤ c.toNat && c.toNat ≤ run.2

/-- The characters with the property `White_Space`. -/
def blanks : Ranges :=
  [(0x9, 0xd), (0x20, 0x20), (0x85, 0x85), (0xa0, 0xa0), (0x1680, 0x1680), (0x2000, 0x200a),
    (0x2028, 0x2029), (0x202f, 0x202f), (0x205f, 0x205f), (0x3000, 0x3000)]

/-- Whether a character counts as white space. -/
def isBlankChar (c : Char) : Bool :=
  blanks.has c

/-! ### Cutting off white space -/

/-- The characters from the first that is not white space. -/
def dropBlanks (cs : List Char) : List Char :=
  cs.dropWhile isBlankChar

/-- The characters up to the last that is not white space. -/
def dropBlanksRight (cs : List Char) : List Char :=
  (dropBlanks cs.reverse).reverse

/-- Whether a text is nothing but white space. -/
def isBlank (s : String) : Bool :=
  s.toList.all isBlankChar

/-- A text without the white space at its start. -/
def trimStart (s : String) : String :=
  String.ofList (dropBlanks s.toList)

/-- A text without the white space at its end. -/
def trimEnd (s : String) : String :=
  String.ofList (dropBlanksRight s.toList)

/-- A text without the white space at its ends. -/
def trim (s : String) : String :=
  trimEnd (trimStart s)

/-! ### Cutting at a separator -/

section Cut
variable {α : Type} [BEq α]

/-- Whether `sep` stands somewhere in the list. -/
def occurs (sep : List α) : List α → Bool
  | [] => sep.isEmpty
  | x :: xs => sep.isPrefixOf (x :: xs) || occurs sep xs

/-- Puts an element in front of the first piece. -/
def consFirst (x : α) : List (List α) → List (List α)
  | [] => [[x]]
  | piece :: pieces => (x :: piece) :: pieces

/-- The pieces between the leftmost occurrences of `sep` that do not overlap. No separator at all, the
    empty list, cuts nothing. -/
def cut (sep : List α) : List α → List (List α)
  | [] => [[]]
  | x :: xs =>
    if sep.isPrefixOf (x :: xs) && !sep.isEmpty then
      [] :: cut sep (xs.drop (sep.length - 1))
    else
      consFirst x (cut sep xs)
termination_by xs => xs.length
decreasing_by
  all_goals simp only [List.length_cons, List.length_drop]; omega

/-- The pieces of a text between the occurrences of a delimiter. -/
def cutText (delimiter text : String) : List String :=
  (cut delimiter.toList text.toList).map String.ofList

end Cut

end Placeholder.Text
