import Placeholder.Fault
import Placeholder.Node.Tidy

/-! # Reading bits

Steps that read nodes off the front of a queue of bits. A token in braces is read in three parts: its
opening marker with its name, its arguments, and its closing marker. The arguments are the bits up to the
closing marker that matches; they are taken off the queue together and then read as a sequence of their own,
one level further in. -/

namespace Placeholder

/-- A step eats bits from the front of a queue. What it leaves is kept when it fails, too. -/
abbrev Reading := EStateM Fault (List Bit)

/-- A way to read the bits of an input as a sequence. The number is the offset just past them. -/
abbrev Nested := Nat → List Bit → Except Fault (List Node)

namespace Reading

/-! ### Single bits -/

/-- The offset of the first bit, or the offset just past the queue when no bit is left. -/
def position (stop : Nat) : List Bit → Nat
  | [] => stop
  | bit :: _ => bit.position

/-- Takes the first bit, which must be of the given kind; another one stays. -/
def expect (stop : Nat) (kind : Bit.Kind) : Reading Bit := fun bits =>
  match bits with
  | [] => .error ⟨.mismatch kind none "", stop⟩ []
  | bit :: rest =>
    if bit.kind = kind then .ok bit rest
    else .error ⟨.mismatch kind (some bit.kind) bit.text, bit.position⟩ (bit :: rest)

/-! ### Arguments -/

/-- Splits bits before the first closing marker that has no opening marker to match, `depth` of them
    being open from before. -/
def enclosed (depth : Nat) : List Bit → List Bit × List Bit
  | [] => ([], [])
  | bit :: rest =>
    match bit.kind, depth with
    | .closing, 0 => ([], bit :: rest)
    | .closing, outer + 1 => (enclosed outer rest).map (bit :: ·) id
    | .opening, _ => (enclosed (depth + 1) rest).map (bit :: ·) id
    | _, _ => (enclosed depth rest).map (bit :: ·) id

/-- Reads the bits up to the end of the token as its arguments. They are off the queue whether they make
    sense or not. -/
def arguments (stop : Nat) (nested : Nested) : Reading (List Node) := fun bits =>
  let (inner, rest) := enclosed 0 bits
  match nested (position stop rest) inner with
  | .ok parts => .ok parts rest
  | .error fault => .error fault rest

/-- Reads the input that a separator introduces. The separator of positional arguments is left out of
    them; that of named ones is their first bit. -/
def input? (stop : Nat) (nested : Nested) : Reading (Option (List Node)) := fun bits =>
  match bits with
  | [] => .ok none []
  | bit :: rest =>
    match bit.kind with
    | .positional => (some <$> arguments stop nested) rest
    | .named => (some <$> arguments stop nested) (bit :: rest)
    | _ => .ok none (bit :: rest)

/-! ### Tokens -/

/-- Reads the name of a token, a literal that is not blank. -/
def name (stop : Nat) : Reading String := do
  let bit ← expect stop .literal
  if Text.isBlank bit.text then throw ⟨.blankName bit.text, bit.position⟩ else return bit.text

/-- Reads a name and its input. -/
def call (stop : Nat) (nested : Nested) (implied : Bool) : Reading Node := do
  let name ← name stop
  let input ← input? stop nested
  return .call name input implied

/-- Reads a token between its markers. -/
def braced (stop : Nat) (nested : Nested) : Reading Node := do
  let _ ← expect stop .opening
  let node ← call stop nested false
  let _ ← expect stop .closing
  return node

/-- Reads a token. There is no way to read its input where it stands too deep. -/
def token (limit stop : Nat) (nested? : Option Nested) (implied : Bool) : Reading Node := fun bits =>
  match nested? with
  | none => .error ⟨.tooDeep limit, position stop bits⟩ bits
  | some nested => if implied then call stop nested true bits else braced stop nested bits

end Reading

end Placeholder
