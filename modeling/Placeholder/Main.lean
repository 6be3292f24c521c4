import Placeholder.CommandLine.Run

/-! # The program

Hands the words and the environment of the process to a run, and prints what that leaves behind. Log lines go
to standard error, before the error that ends a run. -/

/-- Runs the program. -/
def main (words : List String) : IO UInt32 := do
  let logLevel ← IO.getEnv "TOKENLEX_LOG_LEVEL"
  let limit ← IO.getEnv "TOKENLEX_MAX_DEPTH"
  let outcome := Placeholder.CommandLine.run words ⟨logLevel, limit⟩
  for event in outcome.events do
    IO.eprintln event.render
  IO.print outcome.output
  IO.eprint outcome.errors
  return UInt32.ofNat outcome.exit
