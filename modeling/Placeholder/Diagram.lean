import Placeholder.Fault

/-! # Diagrams of errors

An error is shown with the line that it points into and a caret under the place. The end of the text lies on the last
line, also when that line ends in a newline. -/

namespace Placeholder

/-! ### Lines -/

/-- A place on a line. -/
structure Line where
  /-- The number of the line, from one. -/
  number : Nat
  /-- The line without its newline. -/
  text : String
  /-- The byte offset in the line. -/
  offset : Nat
  deriving DecidableEq, Repr

namespace Line

/-- The lines of a text, each with the newline that ends it. -/
def lines : List Char → List (List Char)
  | [] => []
  | c :: rest => if c = '\n' then [c] :: lines rest else Text.consFirst c (lines rest)

/-- Finds the line of an offset, from the line with the given number on. -/
def locate (number offset : Nat) : List (List Char) → Option Line
  | [] => if offset = 0 then some ⟨number, "", 0⟩ else none
  | line :: rest =>
    let size := (String.ofList line).utf8ByteSize
    if offset < size || rest.isEmpty && offset == size then
      some ⟨number, String.ofList (line.takeWhile (· != '\n')), offset⟩
    else
      locate (number + 1) (offset - size) rest

/-- The line of a byte offset, if that is not past the end of the text. -/
def at? (text : String) (position : Nat) : Option Line :=
  locate 1 position (lines text.toList)

/-- The number of characters in the first bytes, if these end between two characters. -/
def column? : List Char → Nat → Option Nat
  | _, 0 => some 0
  | [], _ + 1 => none
  | c :: rest, bytes => if c.utf8Size ≤ bytes then (column? rest (bytes - c.utf8Size)).map (· + 1) else none

/-- The number of columns before the place. -/
def column (line : Line) : Nat :=
  (column? line.text.toList line.offset).getD line.offset

end Line

/-! ### Diagrams -/

namespace ParseError

/-- The margin beside the lines of a diagram, of the width of a line number. -/
def margin (number : Nat) : String :=
  String.ofList (List.replicate ((toString number).length + 1) ' ') ++ "|"

/-- The line that an error points into; an error past the end points at the end of the whole text. -/
def line (error : ParseError) (raw : String) : Line :=
  (Line.at? raw error.position).getD ⟨1, raw, raw.utf8ByteSize⟩

/-- The name of an error and what to do about it. -/
def heading (error : ParseError) : String :=
  "Error: " ++ error.name ++ match error.tip? with
    | some tip => " (" ++ tip ++ ")"
    | none => ""

/-- Draws where in a text an error lies. -/
def diagram (error : ParseError) (raw : String) : String :=
  let line := error.line raw
  "\n".intercalate [
    error.heading,
    margin line.number,
    toString line.number ++ " | " ++ line.text,
    margin line.number ++ " " ++ String.ofList (List.replicate line.column '-') ++ "^"]

end ParseError

end Placeholder
