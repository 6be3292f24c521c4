import Placeholder.Node.Basic

/-! # Tidy sequences

A sequence of nodes is tidied in two steps. Literals that stand side by side are merged; then white
space is cut off where a literal touches a token or an end of the sequence, as the rule in force says,
and literals that are left empty are dropped. A literal is judged by its neighbours after merging, also
where a neighbour is dropped. -/

namespace Placeholder.Node

/-- Where white space is cut off. -/
structure Rule where
  /-- Where a literal touches a token. -/
  atTokens : Bool
  /-- At the two ends of the sequence. -/
  atEnds : Bool
  deriving DecidableEq, Repr

/-- Merges literals that stand side by side. -/
def merge : List Node → List Node
  | [] => []
  | .literal text :: rest =>
    match merge rest with
    | .literal more :: others => .literal (text ++ more) :: others
    | others => .literal text :: others
  | node :: rest => node :: merge rest

/-- Whether white space is cut off next to a neighbour, `none` being an end of the sequence. -/
def Rule.cutsAt (rule : Rule) : Option Node → Bool
  | none => rule.atEnds
  | some node => rule.atTokens && node.isToken

/-- The text of a literal between its two neighbours. -/
def Rule.trim (rule : Rule) (before after : Option Node) (text : String) : String :=
  let text := if rule.cutsAt before then Text.trimStart text else text
  if rule.cutsAt after then Text.trimEnd text else text

/-- Whether a literal with nothing left of its text is dropped. One that was empty from the start stays
    unless the ends are trimmed. -/
def Rule.drops (rule : Rule) (text kept : String) : Bool :=
  kept.isEmpty && (rule.atEnds || !text.isEmpty)

/-- Trims the literals of a merged sequence. -/
def settle (rule : Rule) (before : Option Node) : List Node → List Node
  | [] => []
  | .literal text :: rest =>
    let kept := rule.trim before rest.head? text
    if rule.drops text kept then settle rule (some (.literal text)) rest
    else .literal kept :: settle rule (some (.literal text)) rest
  | node :: rest => node :: settle rule (some node) rest

/-- Merges the literals of a sequence and trims them as the rule says. -/
def tidy (rule : Rule) (nodes : List Node) : List Node :=
  settle rule none (merge nodes)

end Placeholder.Node
