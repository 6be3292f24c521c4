import Placeholder.Settings

/-! # Log events

What the program reports about its own work, beside its output. -/

namespace Placeholder

/-- The version of the program. -/
def version : String := "0.1.0"

/-- Something worth reporting. -/
structure Event where
  level : LogLevel
  /-- The part of the program that reports it. -/
  source : String
  message : String
  /-- Named details, as they are written. -/
  fields : List (String × String)
  deriving DecidableEq, Repr

namespace Event

/-- The mark of a level at the start of a line. -/
def mark : LogLevel → String
  | .trace => "TRACE"
  | .debug => "DEBUG"
  | .info => "INFO"
  | .warn => "WARN"
  | .error => "ERROR"

/-- An event on one line. -/
def render (event : Event) : String :=
  " ".intercalate
    ((mark event.level ++ " " ++ event.source ++ ": " ++ event.message) ::
      event.fields.map fun field => field.1 ++ "=" ++ field.2)

/-- Whether an event is grave enough to be logged at a level. -/
def isLogged (level : LogLevel) (event : Event) : Bool :=
  level.rank ≤ event.level.rank

/-! ### The events of a run -/

/-- The program starts. -/
def started : Event :=
  ⟨.info, "tokenlex", "starting tokenlex", [("version", Text.quote version)]⟩

/-- A setting has no meaning. -/
def badSetting (error : SettingError) : Event :=
  ⟨.error, "tokenlex", "invalid configuration", [("error", error.message)]⟩

/-- A text is a single bit by its look. -/
def verbatim (text : String) : Event :=
  ⟨.trace, "tokenlex::lexer::lexer", "short-circuit tokenization", [("raw", Text.quote text)]⟩

/-- A text has been read. -/
def parsed (nodes : List Node) : Event :=
  ⟨.debug, "tokenlex::parser::parser", "parsed token sequence", [("count", toString nodes.length)]⟩

/-- A text cannot be read. -/
def unparsed (text : String) (fault : Fault) : Event :=
  ⟨.debug, "tokenlex::parser::parser", "failed parsing raw input",
    [("raw", Text.quote text), ("error", (ParseError.fault fault).message)]⟩

/-- A text is a single segment. -/
def wholeSegment (text : String) : Event :=
  ⟨.trace, "tokenlex::splitter::splitter", "no delimiter, single segment", [("input", Text.quote text)]⟩

/-- A text is split without reading it. -/
def plainSplit (text : String) : Event :=
  ⟨.trace, "tokenlex::splitter::splitter", "no tokens, plain split", [("input", Text.quote text)]⟩

end Event

end Placeholder
