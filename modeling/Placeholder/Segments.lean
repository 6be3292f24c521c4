import Placeholder.Node.Render
import Placeholder.Reader

/-! # Segments

A text is split at a delimiter, but never inside of a token. -/

namespace Placeholder

/-- How a text is split. -/
structure Splitting where
  delimiter : String := ","
  /-- Leaves out segments with nothing in them. -/
  dropEmpty : Bool := true
  /-- Cuts white space off the ends of segments. -/
  trim : Bool := true
  limit : Nat := defaultLimit
  deriving DecidableEq, Repr

namespace Splitting

/-- The way in which a text is split. -/
inductive Course where
  /-- There is nothing to split at. -/
  | whole
  /-- There are delimiters, and no tokens around them. -/
  | plain
  /-- There may be delimiters in tokens. -/
  | aroundTokens
  deriving DecidableEq, Repr

/-- A text without delimiters is left whole. One that may hold a token is read before it is split. -/
def course (splitting : Splitting) (text : String) : Course :=
  if splitting.delimiter.isEmpty || !Text.occurs splitting.delimiter.toList text.toList then .whole
  else if !Bit.mayHoldToken text then .plain
  else .aroundTokens

/-! ### Segments of nodes -/

/-- Joins the last of the first segments to the first of the others. -/
def glue : List String → List String → List String
  | [], others => others
  | [segment], [] => [segment]
  | [segment], other :: others => (segment ++ other) :: others
  | segment :: segments, others => segment :: glue segments others

/-- The pieces of a node: a literal is cut at the delimiter, and any other node is left whole. -/
def pieces (delimiter : String) : Node → List String
  | .literal text => Text.cutText delimiter text
  | node => [node.render]

/-- The segments of a sequence of nodes. What stands between two delimiters is one segment. -/
def nodeSegments (delimiter : String) : List Node → List String
  | [] => [""]
  | node :: rest => glue (pieces delimiter node) (nodeSegments delimiter rest)

/-! ### Segments of texts -/

/-- The segments of a text as they stand in it, or the error of a text that cannot be read. -/
def rawSegments (splitting : Splitting) (text : String) : Except ParseError (List String) :=
  match splitting.course text with
  | .whole => .ok [text]
  | .plain => .ok (Text.cutText splitting.delimiter text)
  | .aroundTokens => (parseUnder ⟨false, false⟩ splitting.limit false text).map (nodeSegments splitting.delimiter)

/-- Trims segments and leaves out empty ones, as far as asked for. -/
def finish (splitting : Splitting) (segments : List String) : List String :=
  (if splitting.trim then segments.map Text.trim else segments).filter fun segment =>
    !(splitting.dropEmpty && segment.isEmpty)

/-- The segments of a text, trimmed and without empty ones as far as asked for. -/
def segments (splitting : Splitting) (text : String) : Except ParseError (List String) :=
  (splitting.rawSegments text).map splitting.finish

end Splitting

end Placeholder
