import Placeholder.Text.Quoted

/-! # Bits

A text is cut into bits: markers, which open or close a token or introduce its arguments, and the
runs of other characters between them. Each bit knows its byte offset in the text. -/

namespace Placeholder

/-- What a bit stands for. -/
inductive Bit.Kind where
  /-- Text of no special meaning. -/
  | literal
  /-- The start of a token, two opening braces. -/
  | opening
  /-- The end of a token, two closing braces. -/
  | closing
  /-- The separator before positional arguments, a colon. -/
  | positional
  /-- The separator before named arguments, a vertical bar. -/
  | named
  deriving DecidableEq, Repr

/-- A piece of a text. -/
structure Bit where
  kind : Bit.Kind
  text : String
  /-- The byte offset of the piece. -/
  position : Nat
  deriving DecidableEq, Repr

namespace Bit

/-! ### Kinds -/

/-- The kind that a piece of text has by its look. -/
def Kind.ofText : String → Kind
  | "\x7b\x7b" => .opening
  | "\x7d\x7d" => .closing
  | ":" => .positional
  | "|" => .named
  | _ => .literal

/-- The name of a kind. -/
def Kind.name : Kind → String
  | .literal => "Literal"
  | .opening => "StartToken"
  | .closing => "EndToken"
  | .positional => "PositionalInputArgSeparator"
  | .named => "NamedInputArgSeparator"

/-- A kind in words, with the marker that it stands for. -/
def Kind.describe : Kind → String
  | .literal => "literal text"
  | .opening => "start of token `\x7b\x7b`"
  | .closing => "end of token `\x7d\x7d`"
  | .positional => "positional argument separator `:`"
  | .named => "named argument separator `|`"

/-! ### One bit -/

/-- A bit of the kind that its text looks like. -/
def ofText (text : String) (position : Nat) : Bit :=
  ⟨Kind.ofText text, text, position⟩

/-- The byte offset just past a bit. Offsets are numbers without a bound; those of a bit made by hand are taken to stay
    below the largest that a machine word holds. -/
def stop (bit : Bit) : Nat :=
  bit.position + bit.text.utf8ByteSize

/-- A bit on one line: its kind, its quoted text and its offset. -/
def render (bit : Bit) : String :=
  bit.kind.name ++ " " ++ Text.quote bit.text ++ " @" ++ toString bit.position

/-! ### Cutting a text into bits -/

/-- Puts a character in front of the fragments, into the first one if that is literal. -/
def consChar (c : Char) : List (Kind × List Char) → List (Kind × List Char)
  | (.literal, cs) :: rest => (.literal, c :: cs) :: rest
  | rest => (.literal, [c]) :: rest

/-- The markers of a text and the runs of characters between them. The markers are taken to be the leftmost matches that
    do not overlap: each of them is the first that starts after the end of the one before. -/
def fragments : List Char → List (Kind × List Char)
  | [] => []
  | '{' :: '{' :: rest => (.opening, ['{', '{']) :: fragments rest
  | '}' :: '}' :: rest => (.closing, ['}', '}']) :: fragments rest
  | ':' :: rest => (.positional, [':']) :: fragments rest
  | '|' :: rest => (.named, ['|']) :: fragments rest
  | c :: rest => consChar c (fragments rest)

/-- Lays fragments end to end from an offset. -/
def place (position : Nat) : List (Kind × List Char) → List Bit
  | [] => []
  | (kind, cs) :: rest =>
    let bit : Bit := ⟨kind, String.ofList cs, position⟩
    bit :: place bit.stop rest

/-- Whether a text is one literal bit whatever it holds: a truth value or nothing but white space. -/
def isVerbatim (text : String) : Bool :=
  text == "true" || text == "false" || Text.isBlank text

/-- The bits of a text. -/
def scan (text : String) : List Bit :=
  if isVerbatim text then [⟨.literal, text, 0⟩] else place 0 (fragments text.toList)

/-- Whether a text may hold a token: it does not unless two opening braces stand in it. -/
def mayHoldToken (text : String) : Bool :=
  Text.occurs "\x7b\x7b".toList text.toList

end Bit

end Placeholder
