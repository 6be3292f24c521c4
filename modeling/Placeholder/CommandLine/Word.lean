import Placeholder.Settings

/-! # Words of the command line

The words that a run is called with, sorted by their look, and the spellings of what they may ask for. -/

namespace Placeholder.CommandLine

/-- A word by its look. -/
inductive Word where
  /-- Two hyphens: all words after them are plain. -/
  | escape
  /-- A name after two hyphens, and the value that an equals sign attaches to it. -/
  | long (name : String) (value : Option String)
  /-- One letter or more after a hyphen. -/
  | short (letter : Char) (more : String)
  /-- Anything else, a lone hyphen and the empty word included. -/
  | plain (text : String)
  deriving DecidableEq, Repr

/-- The characters after the first equals sign, if there is one. -/
def attached? (cs : List Char) : Option String :=
  match cs.dropWhile (· != '=') with
  | [] => none
  | _ :: value => some (String.ofList value)

/-- The form that a word has by its hyphens. -/
def Word.ofText (word : String) : Word :=
  match word.toList with
  | ['-', '-'] => .escape
  | '-' :: '-' :: cs => .long (String.ofList (cs.takeWhile (· != '='))) (attached? cs)
  | '-' :: c :: cs => .short c (String.ofList cs)
  | _ => .plain word

/-! ### What words may ask for -/

/-- What the program does with a text. -/
inductive Verb where
  | bits
  | parse
  | split
  deriving DecidableEq, Repr

/-- What is given with a value. -/
inductive Parameter where
  | logLevel
  | limit
  | delimiter
  deriving DecidableEq, Repr

/-- What is given by name alone. -/
inductive Switch where
  | implied
  | trim
  | keepEmpty
  | noTrim
  deriving DecidableEq, Repr

/-- The verb of a name. -/
def Verb.ofName? : String → Option Verb
  | "bits" => some .bits
  | "parse" => some .parse
  | "split" => some .split
  | _ => none

/-- The name of a parameter, as it stands after two hyphens. -/
def Parameter.name : Parameter → String
  | .logLevel => "log-level"
  | .limit => "max-depth"
  | .delimiter => "delimiter"

/-- A parameter as the usage shows it. -/
def Parameter.usage : Parameter → String
  | .logLevel => "--log-level <LOG_LEVEL>"
  | .limit => "--max-depth <MAX_DEPTH>"
  | .delimiter => "--delimiter <DELIMITER>"

/-- The name of a switch, as it stands after two hyphens. -/
def Switch.name : Switch → String
  | .implied => "implied"
  | .trim => "trim"
  | .keepEmpty => "keep-empty"
  | .noTrim => "no-trim"

/-- The parameters that may be given before the verb, or after it. -/
def Parameter.allowed : Option Verb → List Parameter
  | some .split => [.logLevel, .limit, .delimiter]
  | _ => [.logLevel, .limit]

/-- The switches that may be given before the verb, or after it. -/
def Switch.allowed : Option Verb → List Switch
  | some .parse => [.implied, .trim]
  | some .split => [.keepEmpty, .noTrim]
  | _ => []

/-- The parameter of a name, if it may be given here. -/
def Parameter.ofName? (verb : Option Verb) (name : String) : Option Parameter :=
  (Parameter.allowed verb).find? (·.name == name)

/-- The switch of a name, if it may be given here. -/
def Switch.ofName? (verb : Option Verb) (name : String) : Option Switch :=
  (Switch.allowed verb).find? (·.name == name)

end Placeholder.CommandLine
