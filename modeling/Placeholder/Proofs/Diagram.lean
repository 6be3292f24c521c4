import Placeholder.Diagram
import Placeholder.Proofs.Line
import Placeholder.Proofs.Text.Size
import Placeholder.Proofs.Truthful

/-! # Where the caret stands

The diagram of an error ends with the line that the error points into and a line with the caret under it. As many
columns come before the caret as there are characters before the error on its line. This fails in one place only: past
the newline that ends the text there is nothing of the line that is shown, so the offset stands in for the column, and
that counts the bytes of the characters on the line. -/

namespace Placeholder
open String (utf8Len)

/-! ### Columns -/

namespace Line
variable {line : Line} {first position bytes : Nat} {text : String} {cs : List Char}

theorem column?_cons (c : Char) (cs : List Char) (h : 0 < bytes) : column? (c :: cs) bytes =
    if c.utf8Size ≤ bytes then (column? cs (bytes - c.utf8Size)).map (· + 1) else none := by
  obtain ⟨n, rfl⟩ := Nat.exists_eq_succ_of_ne_zero h.ne'
  rfl

theorem column?_append (before after : List Char) :
    column? (before ++ after) (utf8Len before) = some before.length := by
  induction before with
  | nil => cases after <;> rfl
  | cons c before ih =>
    have hpos := c.utf8Size_pos
    rw [String.utf8Len_cons, List.cons_append, column?_cons c _ (by omega), if_pos (by omega), Nat.add_sub_cancel, ih]
    rfl

theorem column?_of_lt (h : utf8Len cs < bytes) : column? cs bytes = none := by
  induction cs generalizing bytes with
  | nil =>
    obtain ⟨n, rfl⟩ := Nat.exists_eq_succ_of_ne_zero h.ne'
    rfl
  | cons c cs ih =>
    rw [String.utf8Len_cons] at h
    rw [column?_cons c cs (by omega)]
    split
    · rw [ih (by omega)]
      rfl
    · rfl

theorem column_of_le {before after : List Char} (h : line.text.toList = before ++ after)
    (hsize : utf8Len before = line.offset) : line.column = before.length := by
  rw [column, h, ← hsize, column?_append]
  rfl

theorem column_of_lt (h : line.text.utf8ByteSize < line.offset) : line.column = line.offset := by
  rw [column, column?_of_lt (by rwa [String.utf8Len_toList])]
  rfl

/-- The place past the newline that ends a text, where the last line holds a character of several bytes. -/
def Overshoots (line : Line) (text : String) (position : Nat) : Prop :=
  text.toList.getLast? = some '\n' ∧ position = text.utf8ByteSize ∧ ∃ c ∈ line.text.toList, 1 < c.utf8Size

theorem IsAt.overshoots_iff (h : line.IsAt first text.toList position) : line.Overshoots text position ↔
    line.offset = line.text.utf8ByteSize + 1 ∧ line.text.toList.length < line.text.utf8ByteSize := by
  rw [Overshoots, h.past_iff, ← Text.length_lt_utf8Len_iff, String.utf8Len_toList, String.utf8Len_toList, and_assoc]

/-- The characters before a place on its line are as many as its column tells, unless it overshoots. -/
theorem IsAt.column_eq_length_iff (h : line.IsAt first text.toList position) {before after rest : List Char}
    (hsplit : before ++ rest = line.text.toList ++ after) (hsize : utf8Len before = line.offset) :
    line.column = before.length ↔ ¬line.Overshoots text position := by
  rw [h.overshoots_iff]
  by_cases hpast : line.offset ≤ line.text.utf8ByteSize
  · obtain ⟨ahead, hline, -⟩ := Text.exists_append_of_utf8Len_le hsplit (by rwa [hsize, String.utf8Len_toList])
    refine iff_of_true (column_of_le hline hsize) ?_
    rintro ⟨hoffset, -⟩
    omega
  · -- What is off the line is a newline, which has one byte.
    have hoffset : line.offset = line.text.utf8ByteSize + 1 := by
      have := h.within
      omega
    obtain ⟨more, rfl, -⟩ :=
      Text.exists_append_of_utf8Len_le hsplit.symm (by rw [hsize, String.utf8Len_toList]; omega)
    rw [String.utf8Len_append, String.utf8Len_toList, hoffset, Nat.add_left_cancel_iff] at hsize
    have hline := Text.length_le_utf8Len line.text.toList
    rw [String.utf8Len_toList] at hline
    rw [column_of_lt (by omega), List.length_append, Text.length_of_utf8Len_one hsize, hoffset]
    omega

/-- A place between two characters parts its text before its line, and again where it is. -/
theorem IsAt.exists_before (h : line.IsAt first text.toList position)
    (valid : String.Pos.Raw.IsValid text ⟨position⟩) :
    ∃ front before after : String, text = front ++ before ++ after ∧
      front.utf8ByteSize = position - line.offset ∧ (front ++ before).utf8ByteSize = position ∧
      (line.column = before.length ↔ ¬line.Overshoots text position) := by
  obtain ⟨front, after, hcs, hsize, -⟩ := h.parts
  obtain ⟨whole, rest, htext, hwhole⟩ := String.Pos.Raw.isValid_iff_exists_append.mp valid
  have hposition : position = utf8Len whole.toList := by
    rw [String.utf8Len_toList]
    exact congrArg String.Pos.Raw.byteIdx hwhole
  have hchars : front ++ (line.text.toList ++ after) = whole.toList ++ rest.toList := by
    rw [← List.append_assoc, ← hcs, htext, String.toList_append]
  obtain ⟨before, hbefore, hsplit⟩ := Text.exists_append_of_utf8Len_le hchars (by omega)
  rw [hbefore, String.utf8Len_append] at hposition
  refine ⟨String.ofList front, String.ofList before, rest, ?_, ?_, ?_, ?_⟩
  · rw [htext, ← String.ofList_append, ← hbefore, String.ofList_toList]
  · rw [String.utf8ByteSize_ofList]
    omega
  · rw [String.utf8ByteSize_append, String.utf8ByteSize_ofList, String.utf8ByteSize_ofList, hposition]
  · rw [String.length_ofList]
    exact h.column_eq_length_iff hsplit.symm (by omega)

theorem IsAt.column_of_overshoots (h : line.IsAt first text.toList position) (ho : line.Overshoots text position) :
    line.column = line.offset := by
  obtain ⟨hoffset, -⟩ := h.overshoots_iff.mp ho
  exact column_of_lt (by omega)

end Line

/-! ### The lines of a diagram -/

namespace ParseError
variable {error : ParseError} {raw : String} {line : Line}

theorem newline_not_mem_number (n : Nat) : '\n' ∉ (toString n).toList := by
  intro h
  rw [Nat.toString_eq_ofList_toDigits, String.toList_ofList] at h
  have hdigit := Nat.isDigit_of_mem_toDigits (by omega) (by omega) h
  simp at hdigit

theorem newline_not_mem_margin (n : Nat) : '\n' ∉ (margin n).toList := by
  simp [margin]

theorem length_margin (n : Nat) : (margin n).length = (toString n ++ " |").length := by
  rw [margin, String.length_append, String.length_append, String.length_ofList, List.length_replicate]
  exact Nat.add_assoc _ 1 1

/-- Under its heading, a diagram has three lines. -/
theorem cutText_diagram (hl : error.line raw = line) (h : '\n' ∉ line.text.toList) :
    Text.cutText "\n" (error.diagram raw) = Text.cutText "\n" error.heading ++
      [margin line.number, toString line.number ++ " | " ++ line.text,
        margin line.number ++ " " ++ String.ofList (List.replicate line.column '-') ++ "^"] := by
  have hmargin := newline_not_mem_margin line.number
  have hnumber := newline_not_mem_number line.number
  have hdelimiter : "\n".toList = ['\n'] := rfl
  rw [diagram, hl]
  refine Text.cutText_intercalate hdelimiter (fun piece hp => ?_) error.heading
  simp only [List.mem_cons, List.not_mem_nil, or_false] at hp
  rcases hp with rfl | rfl | rfl
  · exact hmargin
  · rw [String.toList_append, String.toList_append, List.mem_append, List.mem_append]
    rintro ((hn | hbar) | ht)
    · exact hnumber hn
    · exact absurd hbar (by decide)
    · exact h ht
  · simp [hmargin]

end ParseError

/-! ### Errors of texts -/

section Parse
variable {text : String} {implied trim : Bool} {limit : Nat} {error : ParseError}

/-- The diagram of an error ends with the line on which the error lies, behind its number, and a line with the caret.
    The caret is as many columns in as there are characters before the error on its line, unless the error is past the
    newline that ends the text, on a line that has more bytes than characters: then it is as many columns in as there
    are bytes. -/
theorem diagram_of_error (h : parse text implied trim limit = .error error) :
    ∃ (line : Line) (front before after : String), Line.at? text error.position = some line ∧
      text = front ++ before ++ after ∧ front.utf8ByteSize = error.position - line.offset ∧
      (front ++ before).utf8ByteSize = error.position ∧
      Text.cutText "\n" (error.diagram text) = Text.cutText "\n" error.heading ++
        [ParseError.margin line.number, toString line.number ++ " | " ++ line.text,
          ParseError.margin line.number ++ " " ++ String.ofList (List.replicate line.column '-') ++ "^"] ∧
      (ParseError.margin line.number).length = (toString line.number ++ " |").length ∧
      (line.column = before.length ↔ ¬line.Overshoots text error.position) ∧
      (line.Overshoots text error.position → line.column = line.offset) := by
  obtain ⟨fault, hf, rfl⟩ := parse_eq_error_iff.mp h
  have valid : String.Pos.Raw.IsValid text ⟨fault.position⟩ := (truthful_of_fault hf).isValid
  have hat : Line.at? text fault.position ≠ none := by
    rw [Ne, Line.at?_eq_none_iff, Nat.not_lt]
    exact valid.le_utf8ByteSize
  obtain ⟨line, hl⟩ := Option.ne_none_iff_exists'.mp hat
  have place := Line.at?_eq_some_iff.mp hl
  obtain ⟨front, before, after, htext, hfront, hbefore, hcolumn⟩ := place.exists_before valid
  have hline : (ParseError.wrap text (.fault fault)).line text = line := Option.getD_eq_iff.mpr (Or.inl hl)
  exact ⟨line, front, before, after, hl, htext, hfront, hbefore, ParseError.cutText_diagram hline place.unbroken,
    ParseError.length_margin line.number, hcolumn, place.column_of_overshoots⟩

/-- A token in the place of the end of another, on the second line and behind a character of two bytes. -/
theorem diagram_of_error_wide :
    parse "é\n\x7b\x7bé {{b}}" false false 3 =
      .error (.wrap "é\n\x7b\x7bé {{b}}" (.fault ⟨.mismatch .closing (some .opening) "\x7b\x7b", 8⟩)) ∧
    ∃ front before after : String, "é\n\x7b\x7bé {{b}}" = front ++ before ++ after ∧
      front.utf8ByteSize = 3 ∧ (front ++ before).utf8ByteSize = 8 ∧ before.length = 4 ∧
      ∃ above, Text.cutText "\n" ((ParseError.wrap "é\n\x7b\x7bé {{b}}"
          (.fault ⟨.mismatch .closing (some .opening) "\x7b\x7b", 8⟩)).diagram "é\n\x7b\x7bé {{b}}") =
        above ++ ["  |", "2 | \x7b\x7bé {{b}}", "  | ----^"] := by
  have hread : parse "é\n\x7b\x7bé {{b}}" false false 3 =
      .error (.wrap "é\n\x7b\x7bé {{b}}"
        (.fault ⟨.mismatch .closing (some .opening) "\x7b\x7b", 8⟩)) := by decide +kernel
  have hplace : Line.at? "é\n\x7b\x7bé {{b}}" 8 = some ⟨2, "\x7b\x7bé {{b}}", 5⟩ := by
    decide +kernel
  obtain ⟨line, front, before, after, hl, htext, hfront, hbefore, hlines, -, hcolumn, -⟩ := diagram_of_error hread
  cases hplace.symm.trans hl
  have hinside : ¬Line.Overshoots ⟨2, "\x7b\x7bé {{b}}", 5⟩ "é\n\x7b\x7bé {{b}}" 8 := by
    rintro ⟨hnewline, -⟩
    exact absurd hnewline (by decide)
  have hlength : Line.column ⟨2, "\x7b\x7bé {{b}}", 5⟩ = 4 := by decide
  exact ⟨hread, front, before, after, htext, hfront, hbefore, (hcolumn.mpr hinside).symm.trans hlength, _, hlines⟩

/-- Past the newline after a character of two bytes, the caret is a column too far. -/
theorem diagram_overshoots :
    parse "\x7b\x7bé\n" false false defaultLimit =
      .error (.wrap "\x7b\x7bé\n" (.fault ⟨.mismatch .closing none "", 5⟩)) ∧
    Line.at? "\x7b\x7bé\n" 5 = some ⟨1, "\x7b\x7bé", 5⟩ ∧ "\x7b\x7bé\n".length = 4 ∧
    (Text.cutText "\n" ((ParseError.wrap "\x7b\x7bé\n" (.fault ⟨.mismatch .closing none "", 5⟩)).diagram
      "\x7b\x7bé\n")).getLast? = some "  | -----^" := by
  refine ⟨?_, ?_, ?_, ?_⟩ <;> decide +kernel

end Parse

end Placeholder
