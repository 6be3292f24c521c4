import Placeholder.Node.Basic
import Placeholder.Text.Quoted

/-! # Nodes as text

The text that a sequence of nodes stands for, the names that it calls, and an outline of its tree. -/

namespace Placeholder.Node

/-! ### Placeholder text -/

/-- The text of an input with the separator that joins it to the name. Named arguments bring their own
    separator, and an empty input is the bare positional one. -/
def argumentText (input : String) : String :=
  if input.toList.head? = some '|' then " " ++ input
  else if input.isEmpty then ":"
  else ": " ++ input

/-- Puts the braces of a token around its content, unless they are implied. -/
def brace (implied : Bool) (content : String) : String :=
  if implied then content else "\x7b\x7b" ++ content ++ "\x7d\x7d"

mutual

/-- The placeholder text of a node. -/
def render : Node → String
  | .literal text => text
  | .token name none implied => brace implied name
  | .token name (some parts) implied => brace implied (name ++ argumentText (renderAll parts))
  | .input parts => renderAll parts
termination_by structural node => node

/-- The placeholder text of a sequence of nodes. -/
def renderAll : List Node → String
  | [] => ""
  | node :: rest => render node ++ renderAll rest
termination_by structural nodes => nodes

end

/-! ### Names -/

mutual

/-- The names that a node calls: its own before those in its input. -/
def names : Node → List String
  | .literal _ => []
  | .token name none _ => [name]
  | .token name (some parts) _ => name :: namesAll parts
  | .input parts => namesAll parts
termination_by structural node => node

/-- The names that a sequence of nodes calls, in the order of the text. -/
def namesAll : List Node → List String
  | [] => []
  | node :: rest => names node ++ namesAll rest
termination_by structural nodes => nodes

end

/-! ### Outline -/

/-- A line of an outline, two spaces in for every level. -/
def outlineLine (level : Nat) (text : String) : String :=
  String.ofList (List.replicate (2 * level) ' ') ++ text

/-- How a token is named in an outline. -/
def tokenLabel (name : String) (implied : Bool) : String :=
  "Token " ++ name ++ if implied then " (implied)" else ""

mutual

/-- The lines that show a node and, further in, what is in it. -/
def outline (level : Nat) : Node → List String
  | .literal text => [outlineLine level ("Literal " ++ Text.quote text)]
  | .token name none implied => [outlineLine level (tokenLabel name implied)]
  | .token name (some parts) implied =>
    outlineLine level (tokenLabel name implied) :: outlineLine (level + 1) "Input" :: outlineAll (level + 2) parts
  | .input parts => outlineLine level "Input" :: outlineAll (level + 1) parts
termination_by structural node => node

/-- The lines that show a sequence of nodes. -/
def outlineAll (level : Nat) : List Node → List String
  | [] => []
  | node :: rest => outline level node ++ outlineAll level rest
termination_by structural nodes => nodes

end

end Placeholder.Node
