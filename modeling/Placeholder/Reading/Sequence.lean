import Placeholder.Reading.Eats

/-! # Reading sequences

A sequence is read node by node until no bit is left. The inputs in it are sequences again, each with room for
one level less. -/

namespace Placeholder.Reading

/-- Puts a node in front of the sequence that a step has read. -/
def consNode (node : Node) :
    EStateM.Result Fault (List Bit) (List Node) → EStateM.Result Fault (List Bit) (List Node)
  | .ok nodes rest => .ok (node :: nodes) rest
  | .error fault rest => .error fault rest

/-- Reads nodes until no bit is left. Separators outside of a token are plain text; a closing marker there
    is eaten and refused. -/
def items (limit stop : Nat) (nested? : Option Nested) : List Bit → EStateM.Result Fault (List Bit) (List Node)
  | [] => .ok [] []
  | bit :: rest =>
    match bit.kind with
    | .opening =>
      match _h : token limit stop nested? false (bit :: rest) with
      | .ok node after => consNode node (items limit stop nested? after)
      | .error fault after => .error fault after
    | .closing => .error ⟨.stray bit.kind bit.text, bit.position⟩ rest
    | _ => consNode (.literal bit.text) (items limit stop nested? rest)
termination_by bits => bits.length
decreasing_by
  · exact length_token_lt _h
  · exact Nat.lt_succ_self rest.length

/-- What a step answers, without the bits that it leaves. -/
def answer {α : Type} : EStateM.Result Fault (List Bit) α → Except Fault α
  | .ok a _ => .ok a
  | .error fault _ => .error fault

/-- Reads an input with `room` levels for the tokens in it; without room a token in it is too deep. -/
def inner (limit : Nat) : Nat → Nested
  | 0, stop, bits => (answer (items limit stop none bits)).map (Node.tidy ⟨true, true⟩)
  | room + 1, stop, bits => (answer (items limit stop (some (inner limit room)) bits)).map (Node.tidy ⟨true, true⟩)

/-- How the inputs of tokens at this depth are read, if tokens may stand there at all. -/
def level (limit depth : Nat) : Option Nested :=
  if depth ≤ limit then some (inner limit (limit - depth)) else none

/-- Reads one token without braces, which must be all there is. -/
def sole (limit depth stop : Nat) : Reading (List Node) := do
  let node ← token limit stop (level limit depth) true
  match ← get with
  | [] => return [node]
  | bit :: _ => throw ⟨.trailing bit.kind bit.text, bit.position⟩

/-- Reads a whole queue as a tidy sequence: one implied token, or any mix of text and tokens. `depth` tokens
    are around it. -/
def sequence (limit depth stop : Nat) (rule : Node.Rule) (implied : Bool) : Reading (List Node) :=
  Node.tidy rule <$> if implied then sole limit depth stop else items limit stop (level limit depth)

end Placeholder.Reading
