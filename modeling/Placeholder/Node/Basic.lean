import Placeholder.Text.Basic

/-! # Nodes

Placeholder text is a sequence of nodes: plain text and tokens. A token calls something by name and may
hand it an input, which is again a sequence of nodes. -/

namespace Placeholder

/-- A unit of placeholder text. -/
inductive Node where
  /-- Plain text outside of any token. -/
  | literal (text : String)
  /-- A call by name. An implied token stands without the braces around it. -/
  | token (name : String) (input : Option (List Node)) (implied : Bool)
  /-- The content of an input on its own. -/
  | input (parts : List Node)

namespace Node

/-- The token of a name as it is written, which may have white space around it. -/
def call (name : String) (input : Option (List Node)) (implied : Bool) : Node :=
  .token (Text.trim name) input implied

/-- The text of a literal. -/
def literal? : Node → Option String
  | .literal text => some text
  | _ => none

/-- The name of a token. -/
def name? : Node → Option String
  | .token name _ _ => some name
  | _ => none

/-- Whether a node is a token. -/
def isToken : Node → Bool
  | .token .. => true
  | _ => false

/-- Whether a node is a token with something in its input. -/
def hasArguments : Node → Bool
  | .token _ (some parts) _ => !parts.isEmpty
  | _ => false

/-! ### Equality -/

mutual

/-- Compares two nodes. -/
def decEq : (a b : Node) → Decidable (a = b)
  | .literal s, .literal t =>
    if h : s = t then isTrue (by rw [h]) else isFalse fun e => h (by injection e)
  | .literal _, .token .. => isFalse nofun
  | .literal _, .input _ => isFalse nofun
  | .token .., .literal _ => isFalse nofun
  | .token m none i, .token n none j =>
    if h : m = n ∧ i = j then isTrue (by rw [h.1, h.2])
    else isFalse fun e => h (by injection e with hm _ hi; exact ⟨hm, hi⟩)
  | .token _ none _, .token _ (some _) _ => isFalse nofun
  | .token _ (some _) _, .token _ none _ => isFalse nofun
  | .token m (some ps) i, .token n (some qs) j =>
    match decEqAll ps qs with
    | isTrue hp =>
      if h : m = n ∧ i = j then isTrue (by rw [h.1, h.2, hp])
      else isFalse fun e => h (by injection e with hm _ hi; exact ⟨hm, hi⟩)
    | isFalse hp => isFalse fun e => hp (by injection e with _ h _; injection h)
  | .token .., .input _ => isFalse nofun
  | .input _, .literal _ => isFalse nofun
  | .input _, .token .. => isFalse nofun
  | .input ps, .input qs =>
    match decEqAll ps qs with
    | isTrue h => isTrue (by rw [h])
    | isFalse h => isFalse fun e => h (by injection e)
termination_by structural a => a

/-- Compares two sequences, node by node. -/
def decEqAll : (as bs : List Node) → Decidable (as = bs)
  | [], [] => isTrue rfl
  | [], _ :: _ => isFalse nofun
  | _ :: _, [] => isFalse nofun
  | a :: as, b :: bs =>
    match decEq a b, decEqAll as bs with
    | isTrue h, isTrue hs => isTrue (by rw [h, hs])
    | isFalse h, _ => isFalse fun e => h (by injection e)
    | _, isFalse hs => isFalse fun e => hs (by injection e)
termination_by structural as => as

end

instance : DecidableEq Node := decEq

end Node

end Placeholder
