import Mathlib.Data.String.Basic
import Placeholder.Diagram

/-! # Places on lines

Every offset in a text has one place: whole lines come before its line, as many as the number tells, and the line is what
follows up to the next newline. The place may be anywhere on the line and right after its end, where the newline is.
Past a newline there is a place only at the very end of the text, which is still on the last line. -/

namespace Placeholder.Line
open String (utf8Len)

/-- The place of a byte offset in some characters whose first line has the number `first`. -/
structure IsAt (line : Line) (first : Nat) (cs : List Char) (position : Nat) : Prop where
  /-- Whole lines come before the line, and it goes on up to a newline or the end. -/
  parts : ∃ front after, cs = front ++ line.text.toList ++ after ∧
    utf8Len front + line.offset = position ∧ front.count '\n' + first = line.number ∧
    (front = [] ∨ front.getLast? = some '\n') ∧ (after = [] ∨ after.head? = some '\n')
  unbroken : '\n' ∉ line.text.toList
  within : line.offset ≤ line.text.utf8ByteSize + 1
  past_iff : line.offset = line.text.utf8ByteSize + 1 ↔ cs.getLast? = some '\n' ∧ position = utf8Len cs

/-! ### Lines -/

section Lines
variable {c : Char} {cs piece rest : List Char}

theorem lines_cons_of_ne (h : c ≠ '\n') (cs : List Char) : lines (c :: cs) = Text.consFirst c (lines cs) := by
  rw [lines, if_neg h]

theorem lines_of_not_mem (h : '\n' ∉ cs) (hne : cs ≠ []) : lines cs = [cs] := by
  induction cs with
  | nil => exact absurd rfl hne
  | cons c cs ih =>
    rw [List.mem_cons, not_or] at h
    rw [lines_cons_of_ne (Ne.symm h.1)]
    by_cases hcs : cs = []
    · subst hcs
      rfl
    · rw [ih h.2 hcs]
      rfl

theorem lines_newline (h : '\n' ∉ piece) (rest : List Char) :
    lines (piece ++ '\n' :: rest) = (piece ++ ['\n']) :: lines rest := by
  induction piece with
  | nil => rw [List.nil_append, lines, if_pos rfl, List.nil_append]
  | cons c piece ih =>
    rw [List.mem_cons, not_or] at h
    rw [List.cons_append, lines_cons_of_ne (Ne.symm h.1), ih h.2]
    rfl

theorem lines_eq_nil_iff : lines cs = [] ↔ cs = [] := by
  cases cs with
  | nil => exact iff_of_true rfl rfl
  | cons c cs =>
    refine iff_of_false ?_ (List.cons_ne_nil c cs)
    rw [lines]
    split
    · exact List.cons_ne_nil _ _
    · cases lines cs <;> exact List.cons_ne_nil _ _

/-- A law of all texts holds if it passes over a line. -/
theorem lines_induction {motive : List Char → Prop} (last : ∀ cs, '\n' ∉ cs → motive cs)
    (line : ∀ piece rest, '\n' ∉ piece → motive rest → motive (piece ++ '\n' :: rest)) (cs : List Char) :
    motive cs := by
  by_cases h : '\n' ∈ cs
  · obtain ⟨piece, rest, hcs, hpiece⟩ := List.eq_append_cons_of_mem h
    rw [hcs]
    exact line piece rest hpiece (lines_induction last line rest)
  · exact last cs h
termination_by cs.length
decreasing_by
  simp [hcs]
  omega

end Lines

/-! ### Finding a place -/

section Locate
variable {cs piece rest front after : List Char} {line other : Line} {first number position : Nat}

theorem takeWhile_of_not_mem (h : '\n' ∉ piece) (rest : List Char) :
    (piece ++ rest).takeWhile (· != '\n') = piece ++ rest.takeWhile (· != '\n') := by
  refine List.takeWhile_append_of_pos fun c hc => ?_
  simpa using fun he : c = '\n' => h (he ▸ hc)

theorem locate_cons (number position : Nat) (piece : List Char) (pieces : List (List Char)) :
    locate number position (piece :: pieces) =
      if position < utf8Len piece ∨ pieces = [] ∧ position = utf8Len piece then
        some ⟨number, String.ofList (piece.takeWhile (· != '\n')), position⟩
      else locate (number + 1) (position - utf8Len piece) pieces := by
  simp [locate, String.utf8ByteSize_ofList]

/-- A last line that no newline ends holds every offset up to its end. -/
theorem locate_last (h : '\n' ∉ cs) (number position : Nat) : locate number position (lines cs) =
    if position ≤ utf8Len cs then some ⟨number, String.ofList cs, position⟩ else none := by
  by_cases hcs : cs = []
  · subst hcs
    cases position <;> rfl
  · have htext : cs.takeWhile (· != '\n') = cs := by simpa using takeWhile_of_not_mem h []
    rw [lines_of_not_mem h hcs, locate_cons, htext, locate]
    by_cases hp : position ≤ utf8Len cs
    · rw [if_pos hp, if_pos (by simpa using Nat.lt_or_eq_of_le hp)]
    · rw [if_neg hp, if_neg (by simp; omega), if_neg (by omega)]

theorem utf8Len_newline (piece rest : List Char) :
    utf8Len (piece ++ '\n' :: rest) = utf8Len piece + 1 + utf8Len rest := by
  have hsize : Char.utf8Size '\n' = 1 := rfl
  rw [String.utf8Len_append, String.utf8Len_cons, hsize]
  omega

/-- A line that a newline ends holds the offsets up to that newline, and the one past it if nothing follows. -/
theorem locate_newline (h : '\n' ∉ piece) (number position : Nat) (rest : List Char) :
    locate number position (lines (piece ++ '\n' :: rest)) =
      if position ≤ utf8Len piece ∨ rest = [] ∧ position = utf8Len piece + 1 then
        some ⟨number, String.ofList piece, position⟩
      else locate (number + 1) (position - (utf8Len piece + 1)) (lines rest) := by
  have hsize : utf8Len (piece ++ ['\n']) = utf8Len piece + 1 := String.utf8Len_append piece ['\n']
  have htext : (piece ++ ['\n']).takeWhile (· != '\n') = piece := by simpa using takeWhile_of_not_mem h ['\n']
  rw [lines_newline h, locate_cons, hsize, htext]
  simp only [lines_eq_nil_iff, Nat.lt_succ_iff]

/-- Past the end of a text there is no place. -/
theorem locate_of_lt (h : utf8Len cs < position) (number : Nat) : locate number position (lines cs) = none := by
  induction cs using lines_induction generalizing number position with
  | last cs hcs => rw [locate_last hcs, if_neg (Nat.not_le.mpr h)]
  | line piece rest hpiece ih =>
    rw [utf8Len_newline] at h
    have hpast : ¬(position ≤ utf8Len piece ∨ rest = [] ∧ position = utf8Len piece + 1) := by omega
    rw [locate_newline hpiece, if_neg hpast]
    exact ih (by omega) (number + 1)

/-! ### The place that is found -/

namespace IsAt

theorem last (h : '\n' ∉ cs) (hp : position ≤ utf8Len cs) :
    IsAt ⟨first, String.ofList cs, position⟩ first cs position where
  parts := ⟨[], [], by simp, by simp, by simp, Or.inl rfl, Or.inl rfl⟩
  unbroken := by simpa using h
  within := by
    rw [String.utf8ByteSize_ofList]
    exact Nat.le_succ_of_le hp
  past_iff := by
    rw [String.utf8ByteSize_ofList]
    refine iff_of_false (by dsimp only; omega) fun ⟨hl, _⟩ => h (List.mem_of_getLast? hl)

theorem newline (h : '\n' ∉ piece) (hp : position ≤ utf8Len piece ∨ rest = [] ∧ position = utf8Len piece + 1) :
    IsAt ⟨first, String.ofList piece, position⟩ first (piece ++ '\n' :: rest) position where
  parts := ⟨[], '\n' :: rest, by simp, by simp, by simp, Or.inl rfl, Or.inr rfl⟩
  unbroken := by simpa using h
  within := by
    rw [String.utf8ByteSize_ofList]
    dsimp only
    omega
  past_iff := by
    rw [String.utf8ByteSize_ofList, utf8Len_newline]
    dsimp only
    constructor
    · intro he
      obtain ⟨rfl, -⟩ := hp.resolve_left (by omega)
      exact ⟨by simp, by simpa using he⟩
    · rintro ⟨-, he⟩
      omega

theorem later (hpiece : '\n' ∉ piece) (hrest : rest ≠ []) (h : line.IsAt (first + 1) rest position) :
    line.IsAt first (piece ++ '\n' :: rest) (utf8Len piece + 1 + position) where
  parts := by
    obtain ⟨front, after, hcs, hsize, hnumber, hfront, hafter⟩ := h.parts
    refine ⟨piece ++ '\n' :: front, after, by simp [hcs], ?_, ?_, Or.inr ?_, hafter⟩
    · rw [utf8Len_newline, Nat.add_assoc, hsize]
    · rw [List.count_append, List.count_eq_zero_of_not_mem hpiece, List.count_cons_self, ← hnumber]
      omega
    · rcases hfront with rfl | hfront
      · simp
      · simp [List.getLast?_cons, hfront]
  unbroken := h.unbroken
  within := h.within
  past_iff := by
    have hlast : (piece ++ '\n' :: rest).getLast? = rest.getLast? := by
      rw [List.append_cons, List.getLast?_append_of_ne_nil _ hrest]
    rw [h.past_iff, hlast, utf8Len_newline, Nat.add_left_cancel_iff]

/-- A place lies in the text, since one past its line is at the end of all. -/
theorem le_size (h : line.IsAt first cs position) : position ≤ utf8Len cs := by
  by_cases hpast : line.offset = line.text.utf8ByteSize + 1
  · exact (h.past_iff.mp hpast).2.le
  · obtain ⟨front, after, hcs, hsize, -⟩ := h.parts
    have hwithin := h.within
    rw [hcs, String.utf8Len_append, String.utf8Len_append, String.utf8Len_toList]
    omega

end IsAt

/-- Up to the end of a text there is a place for every offset. -/
theorem exists_locate (h : position ≤ utf8Len cs) (number : Nat) :
    ∃ line, locate number position (lines cs) = some line ∧ line.IsAt number cs position := by
  induction cs using lines_induction generalizing number position with
  | last cs hcs =>
    rw [locate_last hcs, if_pos h]
    exact ⟨_, rfl, .last hcs h⟩
  | line piece rest hpiece ih =>
    rw [locate_newline hpiece]
    by_cases hp : position ≤ utf8Len piece ∨ rest = [] ∧ position = utf8Len piece + 1
    · rw [if_pos hp]
      exact ⟨_, rfl, .newline hpiece hp⟩
    · rw [utf8Len_newline] at h
      have hrest : rest ≠ [] := by
        rintro rfl
        simp at h hp
        omega
      obtain ⟨line, hl, his⟩ := ih (show position - (utf8Len piece + 1) ≤ utf8Len rest by omega) (number + 1)
      have hposition : utf8Len piece + 1 + (position - (utf8Len piece + 1)) = position := by omega
      rw [if_neg hp]
      exact ⟨line, hl, hposition ▸ his.later hpiece hrest⟩

/-! ### There is no other place -/

/-- Of two places of one offset, neither lies on a later line. Otherwise the whole first line with its newline would lie
    between the starts of the lines, and the offset right behind it; but there only the last line goes on. -/
theorem IsAt.start_eq (h : line.IsAt first cs position) (ho : other.IsAt first cs position)
    {front more after rest : List Char} (hcs : cs = front ++ line.text.toList ++ after)
    (hsize : utf8Len front + line.offset = position) (hother : cs = front ++ more ++ other.text.toList ++ rest)
    (hothersize : utf8Len (front ++ more) + other.offset = position)
    (hends : front ++ more = [] ∨ (front ++ more).getLast? = some '\n') : more = [] := by
  by_contra hne
  have hlast : more.getLast? = some '\n' := by
    rcases hends with hnil | hlast
    · exact absurd (List.append_eq_nil_iff.mp hnil).2 hne
    · rwa [List.getLast?_append_of_ne_nil _ hne] at hlast
  have hnewline : '\n' ∈ more := List.mem_of_getLast? hlast
  have hsplit : line.text.toList ++ after = more ++ (other.text.toList ++ rest) := by
    rw [hother] at hcs
    simpa using hcs.symm
  rcases List.append_eq_append_iff.mp hsplit with ⟨beyond, hmore, -⟩ | ⟨inside, hline, -⟩
  · have hbeyond : utf8Len beyond ≠ 0 := by
      rw [Ne, String.utf8Len_eq_zero]
      rintro rfl
      rw [hmore, List.append_nil] at hnewline
      exact h.unbroken hnewline
    have hwithin := h.within
    rw [hmore, String.utf8Len_append, String.utf8Len_append, String.utf8Len_toList] at hothersize
    have hpast := ho.past_iff.mpr (h.past_iff.mp (by omega))
    omega
  · exact h.unbroken (hline ▸ List.mem_append_left inside hnewline)

/-- A line is what comes before the next newline. -/
theorem eq_takeWhile {piece rest : List Char} (h : '\n' ∉ piece) (hrest : rest = [] ∨ rest.head? = some '\n') :
    piece = (piece ++ rest).takeWhile (· != '\n') := by
  rw [takeWhile_of_not_mem h]
  rcases hrest with rfl | hrest
  · simp
  · obtain ⟨more, rfl⟩ := List.head?_eq_some_iff.mp hrest
    simp

theorem IsAt.unique (h : line.IsAt first cs position) (ho : other.IsAt first cs position) : line = other := by
  obtain ⟨front, after, hcs, hsize, hnumber, hfront, hafter⟩ := h.parts
  obtain ⟨start, rest, hother, hothersize, hothernumber, hstart, hrest⟩ := ho.parts
  have hsplit : front ++ (line.text.toList ++ after) = start ++ (other.text.toList ++ rest) := by
    rw [← List.append_assoc, ← hcs, hother, List.append_assoc]
  have hfronts : front = start := by
    rcases List.append_eq_append_iff.mp hsplit with ⟨more, rfl, -⟩ | ⟨more, rfl, -⟩
    · rw [h.start_eq ho hcs hsize hother hothersize hstart, List.append_nil]
    · rw [ho.start_eq h hother hothersize hcs hsize hfront, List.append_nil]
  subst hfronts
  have htexts : line.text = other.text := by
    rw [← String.toList_inj, eq_takeWhile h.unbroken hafter, List.append_cancel_left hsplit,
      ← eq_takeWhile ho.unbroken hrest]
  have hnumbers : line.number = other.number := hnumber.symm.trans hothernumber
  have hoffsets : line.offset = other.offset := by omega
  cases line
  cases other
  simp_all

end Locate

/-! ### Lines of texts -/

section Text
variable {text : String} {position : Nat} {line : Line}

theorem at?_eq_none_iff : at? text position = none ↔ text.utf8ByteSize < position := by
  rw [at?, ← String.utf8Len_toList]
  refine ⟨fun h => ?_, fun h => locate_of_lt h 1⟩
  by_contra hle
  obtain ⟨line, hl, -⟩ := exists_locate (Nat.not_lt.mp hle) 1
  rw [h] at hl
  cases hl

theorem at?_eq_some_iff : at? text position = some line ↔ line.IsAt 1 text.toList position := by
  constructor
  · intro h
    have hle : position ≤ utf8Len text.toList := by
      rw [String.utf8Len_toList, ← Nat.not_lt, ← at?_eq_none_iff, h]
      simp
    obtain ⟨found, hf, his⟩ := exists_locate hle 1
    rw [at?, hf] at h
    cases h
    exact his
  · intro h
    obtain ⟨found, hf, his⟩ := exists_locate h.le_size 1
    rw [at?, hf, h.unique his]

/-- An offset has a place on a line unless it is past the end of the text, and that is the only place that it has. -/
theorem at?_exact (text : String) (position : Nat) :
    (at? text position = none ↔ text.utf8ByteSize < position) ∧
      ∀ line, at? text position = some line ↔ line.IsAt 1 text.toList position :=
  ⟨at?_eq_none_iff, fun _ => at?_eq_some_iff⟩

/-- The end of a text that ends in an empty line is past the newline of that line. -/
example : at? "é\n\n" 4 = some ⟨2, "", 1⟩ := by decide

end Text

end Placeholder.Line
