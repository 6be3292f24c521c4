import Placeholder.Reading.Sequence

/-! # Readers

A reader holds the bits not yet read, and each operation hands back the reader as it stands afterwards. A
reader goes on after an operation that has failed. Whole texts and whole lists of bits are read by readers of
their own, around which there is no token. -/

namespace Placeholder

/-- How deep tokens may be nested in the inputs of others unless another limit is set. -/
def defaultLimit : Nat := 64

/-- A queue of bits to be read. -/
structure Reader where
  bits : List Bit
  /-- The offset reported once no bit is left. -/
  stop : Nat
  /-- In the inputs of how many others a token may stand. -/
  limit : Nat
  /-- In the inputs of how many tokens the bits stand. -/
  depth : Nat
  deriving DecidableEq, Repr

namespace Reader

/-- The reader of some bits, which ends where the last of them does. -/
def ofBits (bits : List Bit) (limit : Nat) : Reader :=
  ⟨bits, (bits.getLast?.map Bit.stop).getD 0, limit, 0⟩

/-- The reader of the bits of a text, which ends where the text does. -/
def ofText (text : String) (limit : Nat) : Reader :=
  ⟨Bit.scan text, text.utf8ByteSize, limit, 0⟩

/-- The reader of the bits of an input, one level further in. -/
def nested (reader : Reader) (bits : List Bit) (stop : Nat) : Reader :=
  { reader with bits := bits, stop := stop, depth := reader.depth + 1 }

/-! ### Looking -/

/-- The bit to be read next, which stays in the queue. -/
def peek (reader : Reader) : Option Bit :=
  reader.bits.head?

/-- Whether any bit is left. -/
def hasBits (reader : Reader) : Bool :=
  !reader.bits.isEmpty

/-- The offset of the bit to be read next, or the end once no bit is left. -/
def position (reader : Reader) : Nat :=
  Reading.position reader.stop reader.bits

/-! ### Reading -/

/-- Takes a step on the bits of a reader. -/
def run {α : Type} (reader : Reader) (step : Reading α) : Except Fault α × Reader :=
  match step reader.bits with
  | .ok a rest => (.ok a, { reader with bits := rest })
  | .error fault rest => (.error fault, { reader with bits := rest })

/-- Takes the next bit, whatever it is. -/
def next? (reader : Reader) : Option Bit × Reader :=
  (reader.bits.head?, { reader with bits := reader.bits.tail })

/-- Takes all the bits that are left. -/
def drain (reader : Reader) : List Bit × Reader :=
  (reader.bits, { reader with bits := [] })

/-- Takes the next bit if it is of the given kind. -/
def expect (reader : Reader) (kind : Bit.Kind) : Except Fault Bit × Reader :=
  reader.run (Reading.expect reader.stop kind)

/-- Reads one token, in braces unless they are implied. -/
def token (reader : Reader) (implied : Bool) : Except Fault Node × Reader :=
  reader.run (Reading.token reader.limit reader.stop (Reading.level reader.limit reader.depth) implied)

/-- Reads the rest of an input, up to the closing marker of its token. -/
def arguments (reader : Reader) : Except Fault (List Node) × Reader :=
  reader.run (Reading.arguments reader.stop (Reading.inner reader.limit (reader.limit - reader.depth)))

/-- Reads all the bits that are left as a sequence under a rule. -/
def sequence (reader : Reader) (rule : Node.Rule) (implied : Bool) : Except Fault (List Node) × Reader :=
  reader.run (Reading.sequence reader.limit reader.depth reader.stop rule implied)

end Reader

/-! ### Texts and bits -/

/-- The sequence of some bits, with white space cut off at its ends if `trim` says so. -/
def parseBits (bits : List Bit) (implied trim : Bool) : Except Fault (List Node) :=
  ((Reader.ofBits bits defaultLimit).sequence ⟨true, trim⟩ implied).1

/-- The sequence of a text under a rule, or its first fault. -/
def readText (rule : Node.Rule) (limit : Nat) (implied : Bool) (text : String) : Except Fault (List Node) :=
  ((Reader.ofText text limit).sequence rule implied).1

/-- The sequence of a text under a rule. A fault is passed on within the text. -/
def parseUnder (rule : Node.Rule) (limit : Nat) (implied : Bool) (text : String) :
    Except ParseError (List Node) :=
  (readText rule limit implied text).mapError fun fault => .wrap text (.fault fault)

/-- The sequence of a text. An implied text is a single token without its braces. -/
def parse (text : String) (implied trim : Bool) (limit : Nat) : Except ParseError (List Node) :=
  parseUnder ⟨true, trim⟩ limit implied text

end Placeholder
