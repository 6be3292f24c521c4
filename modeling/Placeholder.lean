import Placeholder.Text.Basic
import Placeholder.Text.Quoted
import Placeholder.Bit
import Placeholder.Node.Basic
import Placeholder.Node.Render
import Placeholder.Node.Tidy
import Placeholder.Fault
import Placeholder.Diagram
import Placeholder.Reading.Basic
import Placeholder.Reading.Eats
import Placeholder.Reading.Sequence
import Placeholder.Reader
import Placeholder.Segments
import Placeholder.Settings
import Placeholder.Log
import Placeholder.Terminal
import Placeholder.CommandLine.Word
import Placeholder.CommandLine.Invocation
import Placeholder.CommandLine.Run
import Placeholder.Main
import Placeholder.Proofs.Text.Trim
import Placeholder.Proofs.Text.Size
import Placeholder.Proofs.Text.Cut
import Placeholder.Proofs.Bit.Fragments
import Placeholder.Proofs.Bit.Follows
import Placeholder.Proofs.Bit.Signs
import Placeholder.Proofs.Bit.Canonical
import Placeholder.Proofs.Bit.Offsets
import Placeholder.Proofs.Bit.Padding
import Placeholder.Proofs.Node.Normal
import Placeholder.Proofs.Node.Formed
import Placeholder.Proofs.Node.Pieces
import Placeholder.Proofs.Node.Nesting
import Placeholder.Proofs.Node.Blank
import Placeholder.Proofs.Node.Neat
import Placeholder.Proofs.Node.Quiet
import Placeholder.Proofs.Grammar.Derivation
import Placeholder.Proofs.Grammar.Acceptance
import Placeholder.Proofs.Grammar.Spelling
import Placeholder.Proofs.Grammar.Form
import Placeholder.Proofs.Grammar.Signs
import Placeholder.Proofs.Stage.Basic
import Placeholder.Proofs.Stage.Faults
import Placeholder.Proofs.Stage.Frames
import Placeholder.Proofs.Stage.Exchange
import Placeholder.Proofs.Accepted
import Placeholder.Proofs.RoundTrip
import Placeholder.Proofs.Viable
import Placeholder.Proofs.Nesting
import Placeholder.Proofs.Padding
import Placeholder.Proofs.Queue
import Placeholder.Proofs.Ink
import Placeholder.Proofs.Levels
import Placeholder.Proofs.Splitting
import Placeholder.Proofs.Course
import Placeholder.Proofs.Names
import Placeholder.Proofs.Truthful
import Placeholder.Proofs.Agreement
import Placeholder.Proofs.Survival
import Placeholder.Proofs.Line
import Placeholder.Proofs.Diagram
import Placeholder.Proofs.Rules
