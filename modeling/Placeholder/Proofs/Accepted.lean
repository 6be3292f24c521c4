import Placeholder.Reader
import Placeholder.Proofs.Bit.Offsets
import Placeholder.Proofs.Stage.Faults

/-! # Accepted texts

A text is accepted if the grammar derives its bits, and otherwise the error tells the first fault that they show from
left to right. -/

namespace Placeholder
open Bit Node Grammar Stage

theorem parseUnder_eq_ok_iff {text : String} {rule : Rule} {limit : Nat} {implied : Bool} {nodes : List Node} :
    parseUnder rule limit implied text = .ok nodes ↔
      ∃ items, Whole limit implied (scan text) items ∧ nodes = tidy rule items := by
  have hread : parseUnder rule limit implied text = .ok nodes ↔ readText rule limit implied text = .ok nodes := by
    rw [parseUnder]
    cases readText rule limit implied text <;> simp [Except.mapError]
  rw [hread, readText, reader_sequence_eq_ok_iff (by rfl)]
  rfl

theorem parse_eq_ok_iff {text : String} {implied trim : Bool} {limit : Nat} {nodes : List Node} :
    parse text implied trim limit = .ok nodes ↔
      ∃ items, Whole limit implied (scan text) items ∧ nodes = tidy ⟨true, trim⟩ items :=
  parseUnder_eq_ok_iff

theorem parseUnder_eq_error_iff {text : String} {rule : Rule} {limit : Nat} {implied : Bool} {error : ParseError} :
    parseUnder rule limit implied text = .error error ↔
      ∃ fault, fault? limit implied text.utf8ByteSize (scan text) = some fault ∧
        error = .wrap text (.fault fault) := by
  have hread (fault : Fault) : readText rule limit implied text = .error fault ↔
      fault? limit implied text.utf8ByteSize (scan text) = some fault :=
    reader_sequence_eq_error_iff rfl
  simp only [← hread, parseUnder]
  cases readText rule limit implied text <;> simp [Except.mapError, eq_comm]

theorem parse_eq_error_iff {text : String} {implied trim : Bool} {limit : Nat} {error : ParseError} :
    parse text implied trim limit = .error error ↔
      ∃ fault, fault? limit implied text.utf8ByteSize (scan text) = some fault ∧
        error = .wrap text (.fault fault) :=
  parseUnder_eq_error_iff

end Placeholder
