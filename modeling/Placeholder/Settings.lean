import Placeholder.Reader

/-! # Settings

How much is logged and how deep tokens may be nested. Settings come from the environment, and the command
line may override them. -/

namespace Placeholder

/-- How grave a log event is. -/
inductive LogLevel where
  | trace
  | debug
  | info
  | warn
  | error
  deriving DecidableEq, Repr

/-- Why a value is no setting. -/
inductive SettingError where
  | unknownLogLevel (value : String)
  | invalidLimit (value : String)
  deriving DecidableEq, Repr

/-- What a run of the program is set to. -/
structure Settings where
  /-- The least grave events that are logged. -/
  logLevel : LogLevel := .warn
  /-- In the inputs of how many others a token may stand. -/
  limit : Nat := defaultLimit
  deriving DecidableEq, Repr

/-- The values of settings in the environment. -/
structure Environment where
  logLevel : Option String := none
  limit : Option String := none
  deriving DecidableEq, Repr

/-- What is wrong with a setting, in words. -/
def SettingError.message : SettingError → String
  | .unknownLogLevel value =>
    "unknown log level '" ++ value ++ "', expected one of: trace, debug, info, warn, error"
  | .invalidLimit value => "invalid max depth '" ++ value ++ "', expected a non-negative integer"

namespace LogLevel

/-- The name of a level. -/
def name : LogLevel → String
  | .trace => "trace"
  | .debug => "debug"
  | .info => "info"
  | .warn => "warn"
  | .error => "error"

/-- The rank of a level; the graver it is the higher. -/
def rank : LogLevel → Nat
  | .trace => 0
  | .debug => 1
  | .info => 2
  | .warn => 3
  | .error => 4

/-- Reads a level by its name, in any case. The names are in ASCII, and no other letter has one of theirs as
    its lower case. -/
def ofText (value : String) : Except SettingError LogLevel :=
  match String.ofList (value.toList.map Char.toLower) with
  | "trace" => .ok .trace
  | "debug" => .ok .debug
  | "info" => .ok .info
  | "warn" => .ok .warn
  | "warning" => .ok .warn
  | "error" => .ok .error
  | _ => .error (.unknownLogLevel value)

end LogLevel

namespace Settings

/-- The number that digits write, the most significant first, after the digits of `high`. -/
def digitsValue (high : Nat) : List Char → Nat
  | [] => high
  | c :: rest => digitsValue (10 * high + (c.toNat - '0'.toNat)) rest

/-- The digits of a number that may have a plus sign. -/
def unsigned : List Char → List Char
  | '+' :: digits => digits
  | digits => digits

/-- Reads a nesting limit: digits, with white space around them and a plus sign before them if they like, for a
    number of at most 64 bits. -/
def limitOfText (value : String) : Except SettingError Nat :=
  let digits := unsigned (Text.trim value).toList
  if digits.isEmpty || !digits.all Char.isDigit || UInt64.size ≤ digitsValue 0 digits then .error (.invalidLimit value)
  else .ok (digitsValue 0 digits)

/-- The settings of an environment. The log level is read first. -/
def ofEnvironment (environment : Environment) : Except SettingError Settings := do
  let logLevel ← match environment.logLevel with
    | some value => LogLevel.ofText value
    | none => .ok .warn
  let limit ← match environment.limit with
    | some value => limitOfText value
    | none => .ok defaultLimit
  return { logLevel, limit }

/-- Settings with those values replaced that are given. -/
def override (settings : Settings) (logLevel : Option LogLevel) (limit : Option Nat) : Settings :=
  { logLevel := logLevel.getD settings.logLevel, limit := limit.getD settings.limit }

end Settings

end Placeholder
