import Placeholder.CommandLine.Word
import Placeholder.Segments

/-! # Invocations

What the words of a command line ask for. Words are read from the left, first those before the verb and then
those after it. A value that is a word of its own is checked only when the next thing that makes sense is met, or
at the end of its part of the words, and the part before the verb ends last; a value that is attached to its
parameter is checked at once. So of two mistakes the one met first is reported. -/

namespace Placeholder.CommandLine

/-- Why words ask for nothing that can be run. -/
inductive Refusal where
  /-- They do not fit together. -/
  | usage
  /-- A value is none that its parameter takes. -/
  | rejected (parameter : Parameter) (value : String) (error : SettingError)
  | version
  | help
  deriving DecidableEq, Repr

/-- What the program is to do. -/
inductive Command where
  | bits (text : String)
  | parse (text : String) (implied trim : Bool)
  | split (text delimiter : String) (dropEmpty trim : Bool)
  deriving DecidableEq, Repr

/-- What the program is to do, and the settings given for it. -/
structure Invocation where
  command : Command
  logLevel : Option LogLevel
  limit : Option Nat
  deriving DecidableEq, Repr

/-! ### One part of the words -/

/-- What has been given in one part of the words. -/
structure Given where
  logLevel : Option LogLevel := none
  limit : Option Nat := none
  delimiter : Option String := none
  switches : List Switch := []
  text : Option String := none
  /-- The parameter met last, if its value is still to come or to be checked. -/
  unsettled : Option (Parameter × Option String) := none
  deriving DecidableEq, Repr

namespace Given

/-- Gives a parameter its value, which it must not have yet. -/
def set (given : Given) (parameter : Parameter) (value : String) : Except Refusal Given :=
  match parameter with
  | .logLevel =>
    if given.logLevel.isSome then .error .usage
    else match LogLevel.ofText value with
      | .ok level => .ok { given with logLevel := some level }
      | .error error => .error (.rejected .logLevel value error)
  | .limit =>
    if given.limit.isSome then .error .usage
    else match Settings.limitOfText value with
      | .ok limit => .ok { given with limit := some limit }
      | .error error => .error (.rejected .limit value error)
  | .delimiter =>
    if given.delimiter.isSome then .error .usage else .ok { given with delimiter := some value }

/-- Sets the parameter met last. One that is still without its value is refused. -/
def settle (given : Given) : Except Refusal Given :=
  match given.unsettled with
  | none => .ok given
  | some (_, none) => .error .usage
  | some (parameter, some value) => { given with unsettled := none }.set parameter value

/-- Turns a switch on, which must not be on yet. -/
def turnOn (given : Given) (switch : Switch) : Except Refusal Given :=
  if switch ∈ given.switches then .error .usage else .ok { given with switches := switch :: given.switches }

/-- Takes a plain word as the text, of which there is one and only after the verb. -/
def takeText (verb : Option Verb) (given : Given) (text : String) : Except Refusal Given :=
  if verb.isNone || given.text.isSome then .error .usage
  else given.settle.map fun given => { given with text := some text }

/-- Takes a name that stands after two hyphens. -/
def takeLong (verb : Option Verb) (given : Given) (name : String) (value : Option String) : Except Refusal Given :=
  match Parameter.ofName? verb name, Switch.ofName? verb name, value with
  | some parameter, _, some value => given.settle >>= fun given => given.set parameter value
  | some parameter, _, none => given.settle.map fun given => { given with unsettled := some (parameter, none) }
  | none, some switch, none => given.settle >>= fun given => given.turnOn switch
  | none, none, none =>
    if name = "help" then given.settle >>= fun _ => .error .help
    else if name = "version" ∧ verb.isNone then given.settle >>= fun _ => .error .version
    else .error .usage
  | none, _, some _ => .error .usage

/-- Takes a letter that stands after a hyphen. -/
def takeShort (verb : Option Verb) (given : Given) (letter : Char) : Except Refusal Given :=
  if letter = 'h' then given.settle >>= fun _ => .error .help
  else if letter = 'V' ∧ verb.isNone then given.settle >>= fun _ => .error .version
  else .error .usage

/-- Takes words that are plain whatever their look. -/
def takePlain (verb : Option Verb) (given : Given) (words : List String) : Except Refusal Given :=
  words.foldlM (takeText verb) given

end Given

/-- What is asked for by the words after a call for help. -/
def helpOn : List String → Refusal
  | [] => .help
  | [word] => if (Verb.ofName? word).isSome ∨ word = "help" then .help else .usage
  | _ => .usage

/-- Reads words up to the verb, or all words after it. -/
def scan (verb : Option Verb) (given : Given) : List String → Except Refusal (Given × Option (Verb × List String))
  | [] => .ok (given, none)
  | word :: rest =>
    match given.unsettled, Word.ofText word with
    | some (parameter, none), .plain value => scan verb { given with unsettled := some (parameter, some value) } rest
    | some (_, none), _ => .error .usage
    | _, .plain text =>
      match verb, Verb.ofName? text with
      | none, some asked => .ok (given, some (asked, rest))
      | none, none => .error (if text = "help" then helpOn rest else .usage)
      | some _, _ => given.takeText verb text >>= fun given => scan verb given rest
    | _, .escape => (given.takePlain verb rest).map (·, none)
    | _, .long name value => given.takeLong verb name value >>= fun given => scan verb given rest
    | _, .short letter _ => given.takeShort verb letter >>= fun given => scan verb given rest

/-! ### All words -/

/-- The command of a verb, with what has been given after it. -/
def Given.command (given : Given) (verb : Verb) (text : String) : Command :=
  match verb with
  | .bits => .bits text
  | .parse => .parse text (given.switches.contains .implied) (given.switches.contains .trim)
  | .split => .split text (given.delimiter.getD ",") (!given.switches.contains .keepEmpty)
      (!given.switches.contains .noTrim)

/-- What the words of a command line ask for. A setting given after the verb is preferred. -/
def Invocation.ofWords (words : List String) : Except Refusal Invocation := do
  let (outer, found) ← scan none {} words
  match found with
  | none => outer.settle >>= fun _ => .error .usage
  | some (verb, rest) => do
    let (unchecked, _) ← scan (some verb) {} rest
    let given ← unchecked.settle
    match given.text with
    | none => .error .usage
    | some text => do
      let outer ← outer.settle
      return ⟨given.command verb text, given.logLevel <|> outer.logLevel, given.limit <|> outer.limit⟩

end Placeholder.CommandLine
