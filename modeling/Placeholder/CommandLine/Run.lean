import Placeholder.CommandLine.Invocation
import Placeholder.Diagram
import Placeholder.Log
import Placeholder.Terminal

/-! # Runs

What a run of the program prints, reports and answers, as a function of its words and its environment. -/

namespace Placeholder.CommandLine

/-- What a run leaves behind. -/
structure Outcome where
  /-- The exit status: 0 if all went well, 1 if the text cannot be read, 2 if nothing was tried. -/
  exit : Nat
  output : String
  errors : String
  /-- The events that are logged, in their order. -/
  events : List Event
  deriving DecidableEq, Repr

/-! ### Commands -/

/-- The text that a command is about. -/
def Command.text : Command → String
  | .bits text => text
  | .parse text _ _ => text
  | .split text _ _ _ => text

/-- The events of cutting a text into bits. -/
def scanEvents (text : String) : List Event :=
  if Bit.isVerbatim text then [.verbatim text] else []

/-- The events of reading a text under a rule. -/
def readEvents (rule : Node.Rule) (limit : Nat) (implied : Bool) (text : String) : List Event :=
  scanEvents text ++ [match readText rule limit implied text with
    | .ok nodes => .parsed nodes
    | .error fault => .unparsed text fault]

/-- The events of splitting a text. -/
def splitEvents (splitting : Splitting) (text : String) : List Event :=
  match splitting.course text with
  | .whole => [.wholeSegment text]
  | .plain => [.plainSplit text]
  | .aroundTokens => readEvents ⟨false, false⟩ splitting.limit false text

/-- The events of a command. -/
def Command.events (limit : Nat) : Command → List Event
  | .bits text => scanEvents text
  | .parse text implied trim => readEvents ⟨true, trim⟩ limit implied text
  | .split text delimiter dropEmpty trim => splitEvents ⟨delimiter, dropEmpty, trim, limit⟩ text

/-- The lines that a command puts out, or the error of its text. -/
def Command.lines (limit : Nat) : Command → Except ParseError (List String)
  | .bits text => .ok ((Bit.scan text).map Bit.render)
  | .parse text implied trim => (Placeholder.parse text implied trim limit).map (Node.outlineAll 0)
  | .split text delimiter dropEmpty trim => Splitting.segments ⟨delimiter, dropEmpty, trim, limit⟩ text

/-- Runs a command. Only the events of the level that is set or a graver one are logged. -/
def Command.run (settings : Settings) (command : Command) : Outcome :=
  let events := (Event.started :: command.events settings.limit).filter (Event.isLogged settings.logLevel)
  match command.lines settings.limit with
  | .ok lines => ⟨0, String.join (lines.map (· ++ "\n")), "", events⟩
  | .error error => ⟨1, "", error.diagram command.text ++ "\n", events⟩

/-! ### Runs without a command -/

/-- What the program says about itself and its commands. -/
def helpText : String :=
  "Inspect placeholder text like `{{Name: a, b |key=value}}`\n\n" ++
  "Usage: tokenlex [OPTIONS] <COMMAND>\n\n" ++
  "Commands:\n" ++
  "  bits   Print the lexical bits of the text\n" ++
  "  parse  Print the parsed token tree\n" ++
  "  split  Split the text on a delimiter outside of tokens\n" ++
  "  help   Print this message\n\n" ++
  "Options:\n" ++
  "      --log-level <LOG_LEVEL>  Log level (trace, debug, info, warn, error)\n" ++
  "      --max-depth <MAX_DEPTH>  Maximum nesting depth of tokens inside token arguments\n" ++
  "  -h, --help                   Print help\n" ++
  "  -V, --version                Print version\n"

/-- The message on a value that its parameter does not take, as a terminal shows it. -/
def rejection (parameter : Parameter) (value : String) (error : SettingError) : String :=
  Terminal.emphasise "error:" ++ " invalid value '" ++ Terminal.emphasise value ++ "' for '" ++
  Terminal.emphasise parameter.usage ++ "': " ++ error.message ++ "\n\n" ++
  "For more information, try '" ++ Terminal.emphasise "--help" ++ "'.\n"

/-- What is left behind where words ask for nothing that can be run. No terminal is taken to read the errors. -/
def Refusal.outcome : Refusal → Outcome
  | .usage => ⟨2, "", "", []⟩
  | .rejected parameter value error => ⟨2, "", Terminal.plain (rejection parameter value error), []⟩
  | .version => ⟨0, "tokenlex " ++ Placeholder.version ++ "\n", "", []⟩
  | .help => ⟨0, helpText, "", []⟩

/-- A run of the program. Its words are read before its environment, and settings among the words are
    preferred. -/
def run (words : List String) (environment : Environment) : Outcome :=
  match Invocation.ofWords words with
  | .error refusal => refusal.outcome
  | .ok invocation =>
    match Settings.ofEnvironment environment with
    | .error error => ⟨2, "", "", [Event.badSetting error].filter (Event.isLogged ({} : Settings).logLevel)⟩
    | .ok settings => invocation.command.run (settings.override invocation.logLevel invocation.limit)

end Placeholder.CommandLine
