/-! # Text for terminals

A terminal takes some characters for commands: control characters, and the sequences that start with an escape.
Messages use such sequences to make words stand out. Where no terminal reads a message, every sequence in it is
left out, those that come from what it quotes included. -/

namespace Placeholder.Terminal

/-- The character that starts a sequence. -/
def escape : Char := '\x1b'

/-- A text that stands out. -/
def emphasise (text : String) : String :=
  "\x1b[1m" ++ text ++ "\x1b[0m"

/-! ### Sequences -/

/-- What the characters read so far have started. -/
inductive Phase where
  /-- Plain text, outside of any sequence. -/
  | text
  /-- A sequence of which only the escape has been read. -/
  | escape
  /-- A short sequence, to be ended by one more letter or sign. -/
  | short
  /-- A control sequence, with numbers and then a letter. -/
  | control
  /-- A command to the system, up to a bell. -/
  | command
  /-- A string for a device, of which nothing has been read. -/
  | device
  /-- The numbers at the head of a string for a device. -/
  | numbers
  /-- The marks after those numbers. -/
  | marks
  /-- A string that is not for the screen. -/
  | string
  deriving DecidableEq, Repr

namespace Phase

/-- Whether a character is a letter, digit or sign of ASCII with a code from `low` on. Sequences sort their
    characters by four bounds: marks start at 0x20, digits at 0x30, private signs at 0x3c and letters at 0x40. -/
def isFrom (low : Nat) (c : Char) : Bool :=
  low ≤ c.toNat && c.toNat ≤ 0x7e

/-- What the character after an escape starts. -/
def ofIntroducer (c : Char) : Phase :=
  if c = '[' then .control
  else if c = ']' then .command
  else if c = 'P' then .device
  else if c = 'X' ∨ c = '^' ∨ c = '_' then .string
  else if isFrom 0x30 c then .text
  else if isFrom 0x20 c then .short
  else .escape

/-- What a character below the digits starts in the head of a string for a device. -/
def ofMark (phase : Phase) (c : Char) : Phase :=
  if isFrom 0x20 c then .marks else phase

/-- The phase after one more character. An escape starts anew everywhere, and a cancel or a substitute ends
    every sequence. The head of a string for a device ends with a letter, or with a sign out of its place. A string
    ends with the byte of the string terminator, in whatever character it stands. -/
def next (phase : Phase) (c : Char) : Phase :=
  if c = Terminal.escape then .escape
  else if c = '\x18' ∨ c = '\x1a' then .text
  else match phase with
    | .text => .text
    | .escape => ofIntroducer c
    | .short => if isFrom 0x30 c then .text else .short
    | .control => if isFrom 0x40 c then .text else .control
    | .command => if c = '\x07' then .text else .command
    | .device => if isFrom 0x40 c then .string else if isFrom 0x30 c then .numbers else ofMark .device c
    | .numbers => if isFrom 0x3c c then .string else if isFrom 0x30 c then .numbers else ofMark .numbers c
    | .marks => if isFrom 0x30 c then .string else .marks
    | .string => if (String.utf8EncodeChar c).contains 0x9c then .text else .string

/-- Whether a control character moves on the page, as white space does. -/
def isSpacing (c : Char) : Bool :=
  c == '\t' || c == '\n' || c == '\x0c' || c == '\r'

/-- Whether a character is to be seen in a phase. White space is, also inside of short and control sequences. -/
def shows (phase : Phase) (c : Char) : Bool :=
  match phase with
  | .text => isSpacing c || (0x20 ≤ c.toNat && c != '\x7f')
  | .escape | .short | .control => isSpacing c
  | .command | .device | .numbers | .marks | .string => false

end Phase

/-! ### Plain text -/

/-- The characters that are to be seen. While `showing`, text is shown whatever phase it stands in, so white space
    inside of a sequence puts off the rest of it; a character beyond ASCII then ends it. -/
def visible (phase : Phase) (showing : Bool) : List Char → List Char
  | [] => []
  | c :: rest =>
    if showing && Phase.text.shows c then c :: visible (if c.toNat < 0x80 then phase else .text) true rest
    else if phase.shows c then c :: visible (phase.next c) true rest
    else visible (phase.next c) false rest

/-- A text without anything that a terminal would take for a command. -/
def plain (text : String) : String :=
  String.ofList (visible .text false text.toList)

end Placeholder.Terminal
