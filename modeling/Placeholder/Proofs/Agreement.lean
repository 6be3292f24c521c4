import Placeholder.Proofs.Accepted
import Placeholder.Proofs.Splitting

/-! # The ways to read a text agree

The bits of a text end where the text does, so that a reader of the bits and one of the text are the same. Splitting
reads a text under a rule of its own, but no rule has a part in the faults: where a text is read, it is split if it can
be parsed, and with the same error otherwise. Where it is not read, there is no error. -/

namespace Placeholder
open Bit

/-! ### Readers of bits -/

theorem stop_of_scan {text : String} {front : List Bit} {last : Bit} (h : scan text = front ++ [last]) :
    last.stop = text.utf8ByteSize := by
  have htext : joined (front ++ [last]) = text := by rw [← h, joined_scan]
  rw [stop, position_of_scan h, ← htext, joined_append, String.utf8ByteSize_append, joined_cons, joined_nil,
    String.append_empty]

/-- The bits of any text reach its end, those of the empty text as well. -/
theorem ofBits_scan (text : String) (limit : Nat) : Reader.ofBits (scan text) limit = Reader.ofText text limit := by
  obtain ⟨front, last, h⟩ := (List.eq_nil_or_concat (scan text)).resolve_left (scan_ne_nil text)
  rw [List.concat_eq_append] at h
  have hlast : (scan text).getLast? = some last := by rw [h, List.getLast?_concat]
  rw [Reader.ofBits, hlast, Option.map_some, Option.getD_some, stop_of_scan h, Reader.ofText]

theorem parse_eq_mapError (text : String) (implied trim : Bool) (limit : Nat) :
    parse text implied trim limit =
      ((Reader.ofBits (scan text) limit).sequence ⟨true, trim⟩ implied).1.mapError
        fun fault => .wrap text (.fault fault) := by
  rw [ofBits_scan]
  rfl

/-! ### Splitting -/

namespace Splitting
variable {splitting : Splitting} {text : String}

/-- There are delimiters in the text, and there may be tokens around them. -/
def MustRead (splitting : Splitting) (text : String) : Prop :=
  splitting.delimiter ≠ "" ∧ splitting.delimiter.toList <:+: text.toList ∧ "\x7b\x7b".toList <:+: text.toList

theorem course_eq_aroundTokens_iff : splitting.course text = .aroundTokens ↔ splitting.MustRead text := by
  rw [MustRead, ← Text.occurs_iff, ← Text.occurs_iff, course, mayHoldToken]
  by_cases hd : splitting.delimiter = ""
  · simp [hd]
  · cases Text.occurs splitting.delimiter.toList text.toList <;>
      cases Text.occurs "\x7b\x7b".toList text.toList <;> simp [hd]

theorem segments_eq_error_iff {error : ParseError} : splitting.segments text = .error error ↔
    splitting.rawSegments text = .error error := by
  rw [segments]
  cases splitting.rawSegments text <;> simp [Except.map]

theorem segments_eq_error_iff_of_mustRead {error : ParseError} (h : splitting.MustRead text) :
    splitting.segments text = .error error ↔ parseUnder ⟨false, false⟩ splitting.limit false text = .error error := by
  rw [segments_eq_error_iff, rawSegments, course_eq_aroundTokens_iff.mpr h]
  cases parseUnder ⟨false, false⟩ splitting.limit false text <;> simp [Except.map]

theorem rawSegments_ne_error (h : ¬splitting.MustRead text) (error : ParseError) :
    splitting.rawSegments text ≠ .error error := by
  rw [← course_eq_aroundTokens_iff] at h
  rw [rawSegments]
  cases hc : splitting.course text with
  | whole | plain => simp
  | aroundTokens => exact absurd hc h

end Splitting

/-- A text is parsed as its bits are read, and an error of the bits becomes an error within the text. A text that has to
    be read to be split is split unless it cannot be parsed, which is told by the same error, and any other text is
    split. -/
theorem ways_agree (text : String) :
    (∀ implied trim limit,
      (∀ nodes, parse text implied trim limit = .ok nodes ↔
        ((Reader.ofBits (scan text) limit).sequence ⟨true, trim⟩ implied).1 = .ok nodes) ∧
      ∀ fault, ((Reader.ofBits (scan text) limit).sequence ⟨true, trim⟩ implied).1 = .error fault →
        parse text implied trim limit = .error (.wrap text (.fault fault))) ∧
    ∀ splitting : Splitting,
      (splitting.MustRead text → ∀ trim error,
        splitting.segments text = .error error ↔ parse text false trim splitting.limit = .error error) ∧
      (¬splitting.MustRead text → ∃ segments, splitting.segments text = .ok segments) := by
  refine ⟨fun implied trim limit => ⟨fun nodes => ?_, fun fault h => ?_⟩, fun splitting =>
    ⟨fun h trim error => ?_, fun h => ?_⟩⟩
  · rw [parse_eq_mapError]
    cases ((Reader.ofBits (scan text) limit).sequence ⟨true, trim⟩ implied).1 <;> simp [Except.mapError]
  · rw [parse_eq_mapError, h]
    rfl
  · rw [Splitting.segments_eq_error_iff_of_mustRead h, parseUnder_eq_error_iff, parse_eq_error_iff]
  · cases hs : splitting.segments text with
    | ok segments => exact ⟨segments, rfl⟩
    | error error => exact absurd (Splitting.segments_eq_error_iff.mp hs) (Splitting.rawSegments_ne_error h error)

/-- A token that does not end, with a delimiter in it and one before it. -/
theorem ways_agree_unclosed :
    ({} : Splitting).MustRead "é,\x7b\x7bA:b,c" ∧
      ((Reader.ofBits (scan "é,\x7b\x7bA:b,c") defaultLimit).sequence ⟨true, true⟩ false).1 =
        .error ⟨.mismatch .closing none "", 10⟩ ∧
      parse "é,\x7b\x7bA:b,c" false true defaultLimit =
        .error (.wrap "é,\x7b\x7bA:b,c" (.fault ⟨.mismatch .closing none "", 10⟩)) ∧
      ({} : Splitting).segments "é,\x7b\x7bA:b,c" =
        .error (.wrap "é,\x7b\x7bA:b,c" (.fault ⟨.mismatch .closing none "", 10⟩)) := by
  have hmust : ({} : Splitting).MustRead "é,\x7b\x7bA:b,c" := by
    refine ⟨?_, ?_, ?_⟩ <;> decide
  have hbits : ((Reader.ofBits (scan "é,\x7b\x7bA:b,c") defaultLimit).sequence ⟨true, true⟩ false).1 =
      .error ⟨.mismatch .closing none "", 10⟩ := by decide +kernel
  obtain ⟨read, split⟩ := ways_agree "é,\x7b\x7bA:b,c"
  have hparse := (read false true defaultLimit).2 _ hbits
  exact ⟨hmust, hbits, hparse, ((split {}).1 hmust true _).mpr hparse⟩

end Placeholder
