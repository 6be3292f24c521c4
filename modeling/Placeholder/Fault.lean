import Placeholder.Bit

/-! # Faults

Why bits cannot be read as placeholder text, and where. A fault met in a whole text is passed on within
that text, so that its message can show it. -/

namespace Placeholder

/-- Why reading stops. -/
inductive Cause where
  /-- Another bit is needed here; `found` is `none` at the end of the bits. -/
  | mismatch (expected : Bit.Kind) (found : Option Bit.Kind) (text : String)
  /-- A bit of this kind has no place outside of a token. -/
  | stray (found : Bit.Kind) (text : String)
  /-- Something follows where a single token is all there may be. -/
  | trailing (found : Bit.Kind) (text : String)
  /-- The name of a token is nothing but white space. -/
  | blankName (text : String)
  /-- A token stands in the inputs of more than `limit` others. -/
  | tooDeep (limit : Nat)
  deriving DecidableEq, Repr

/-- A cause and the byte offset at which it was met. -/
structure Fault where
  cause : Cause
  position : Nat
  deriving DecidableEq, Repr

/-- Why a text has no reading. -/
inductive ParseError where
  | fault (f : Fault)
  /-- An error met while reading `raw`, with an offset of its own. -/
  | within (raw : String) (position : Nat) (inner : ParseError)
  deriving DecidableEq, Repr

namespace Cause

/-- The name of a cause. -/
def name : Cause → String
  | .mismatch .. => "UnexpectedBit"
  | .stray .. => "UnexpectedBitType"
  | .trailing .. => "TrailingContent"
  | .blankName _ => "EmptyTokenName"
  | .tooDeep _ => "NestingTooDeep"

/-- A cause in words, with the text that was met. -/
def describe : Cause → String
  | .mismatch expected found text =>
    "expected " ++ expected.describe ++ ", found " ++ (found.map Bit.Kind.describe).getD "end of input" ++ " " ++
      Text.quote text
  | .stray found text => "unexpected " ++ found.describe ++ " " ++ Text.quote text
  | .trailing found text => "unexpected " ++ found.describe ++ " " ++ Text.quote text ++ " after the token"
  | .blankName text => "token name " ++ Text.quote text ++ " is empty"
  | .tooDeep limit => "tokens are nested deeper than the limit of " ++ toString limit

/-- What to do about a cause, where there is something to say. -/
def tip? : Cause → Option String
  | .mismatch .closing none _ => some "Reached the end of the input, did you miss a closing `\x7d\x7d`?"
  | .mismatch .literal _ _ => some "A token must start with its name, like `{{Name}}`"
  | .mismatch expected _ _ => some ("Expected " ++ expected.describe ++ " here")
  | .stray .closing _ => some "Found `\x7d\x7d` without a matching `\x7b\x7b`"
  | .stray _ _ => none
  | .trailing _ text => some ("Only one token is allowed here, remove `" ++ text ++ "`")
  | .blankName _ => some "A token must start with its name, like `{{Name}}`"
  | .tooDeep limit => some ("Tokens may be nested at most " ++ toString limit ++ " levels deep")

/-- Whether the cause is the form of the text and not a limit set on it. -/
def isMalformed : Cause → Bool
  | .tooDeep _ => false
  | _ => true

end Cause

namespace ParseError

/-- The byte offset of an error. -/
def position : ParseError → Nat
  | .fault f => f.position
  | .within _ position _ => position

/-- Passes on an error met while reading `raw`. Its offset is kept. -/
def wrap (raw : String) (inner : ParseError) : ParseError :=
  .within raw inner.position inner

@[simp] theorem position_wrap (raw : String) (inner : ParseError) : (wrap raw inner).position = inner.position := rfl

@[simp] theorem wrap_inj {raw : String} {a b : ParseError} : wrap raw a = wrap raw b ↔ a = b := by
  constructor
  · intro h
    injection h
  · rintro rfl
    rfl

/-- The fault behind an error, whatever texts it was met in. -/
def root : ParseError → Fault
  | .fault f => f
  | .within _ _ inner => root inner

/-- The name of an error. -/
def name : ParseError → String
  | .fault f => f.cause.name
  | .within .. => "InvalidInput"

/-- An error in words, without its place. -/
def describe : ParseError → String
  | .fault f => f.cause.describe
  | .within raw _ inner => "failed parsing " ++ Text.quote raw ++ ": " ++ describe inner

/-- An error in words and its place. -/
def message (error : ParseError) : String :=
  error.describe ++ " (at offset " ++ toString error.position ++ ")"

/-- What to do about an error, by the fault behind it. -/
def tip? (error : ParseError) : Option String :=
  error.root.cause.tip?

/-- Whether the fault behind an error is the form of the text and not a limit set on it. -/
def isMalformed (error : ParseError) : Bool :=
  error.root.cause.isMalformed

end ParseError

end Placeholder
