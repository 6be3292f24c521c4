import Mathlib.Data.String.Basic

/-! # Sizes of texts

The size of a text is the number of its bytes, at least one for each character. Fronts of one text are told apart by their
sizes. -/

namespace Placeholder.Text
open String (utf8Len)

section Size
variable {cs ds es fs : List Char}

theorem length_le_utf8Len (cs : List Char) : cs.length ≤ utf8Len cs := by
  induction cs with
  | nil => rfl
  | cons c cs ih =>
    have := c.utf8Size_pos
    rw [List.length_cons, String.utf8Len_cons]
    omega

/-- Some character has several bytes if there are more bytes than characters. -/
theorem length_lt_utf8Len_iff : cs.length < utf8Len cs ↔ ∃ c ∈ cs, 1 < c.utf8Size := by
  induction cs with
  | nil => simp
  | cons c cs ih =>
    have hpos := c.utf8Size_pos
    have hle := length_le_utf8Len cs
    rw [List.exists_mem_cons_iff, ← ih, List.length_cons, String.utf8Len_cons]
    omega

theorem length_of_utf8Len_one (h : utf8Len cs = 1) : cs.length = 1 := by
  have hle := length_le_utf8Len cs
  have hne : cs.length ≠ 0 := by
    rw [Ne, List.length_eq_zero_iff]
    rintro rfl
    cases h
  omega

/-- Of two fronts of one text, the one with fewer bytes is a front of the other. -/
theorem exists_append_of_utf8Len_le (h : cs ++ ds = es ++ fs) (hle : utf8Len cs ≤ utf8Len es) :
    ∃ more, es = cs ++ more ∧ ds = more ++ fs := by
  rcases List.append_eq_append_iff.mp h with hmore | ⟨more, rfl, rfl⟩
  · exact hmore
  · have hnil : more = [] := by
      rw [← String.utf8Len_eq_zero]
      rw [String.utf8Len_append] at hle
      omega
    exact ⟨[], by simp [hnil], by simp [hnil]⟩

end Size

end Placeholder.Text
