import Mathlib.Data.List.TakeWhile
import Placeholder.Text.Basic

/-! # Trimmed texts

Trimming leaves a text that starts and ends without white space, changes no text that does already, and takes
nothing but white space away. -/

namespace Placeholder.Text

/-- No white space at the start of a text. -/
def StartsClean (s : String) : Prop :=
  ∀ c ∈ s.toList.head?, isBlankChar c = false

/-- No white space at the end of a text. -/
def EndsClean (s : String) : Prop :=
  ∀ c ∈ s.toList.getLast?, isBlankChar c = false

instance (s : String) : Decidable (StartsClean s) :=
  Option.decidableForallMem s.toList.head?

instance (s : String) : Decidable (EndsClean s) :=
  Option.decidableForallMem s.toList.getLast?

/-! ### Characters -/

section Chars
variable {cs ds : List Char}

theorem head_dropBlanks (cs : List Char) : ∀ c ∈ (dropBlanks cs).head?, isBlankChar c = false := by
  intro c hc
  have h := List.head?_dropWhile_not isBlankChar cs
  rw [dropBlanks] at hc
  rw [hc] at h
  exact h

theorem dropBlanks_of_head (h : ∀ c ∈ cs.head?, isBlankChar c = false) : dropBlanks cs = cs := by
  cases cs with
  | nil => rfl
  | cons c cs => rw [dropBlanks, List.dropWhile_cons, h c rfl, if_neg Bool.false_ne_true]

theorem dropBlanks_suffix (cs : List Char) : dropBlanks cs <:+ cs :=
  List.dropWhile_suffix isBlankChar

theorem dropBlanksRight_isPrefix (cs : List Char) : dropBlanksRight cs <+: cs := by
  rw [← List.reverse_suffix, dropBlanksRight, List.reverse_reverse]
  exact dropBlanks_suffix cs.reverse

theorem getLast_dropBlanksRight (cs : List Char) : ∀ c ∈ (dropBlanksRight cs).getLast?, isBlankChar c = false := by
  rw [dropBlanksRight, List.getLast?_reverse]
  exact head_dropBlanks cs.reverse

theorem dropBlanksRight_of_getLast (h : ∀ c ∈ cs.getLast?, isBlankChar c = false) : dropBlanksRight cs = cs := by
  rw [dropBlanksRight, dropBlanks_of_head (by rwa [List.head?_reverse]), List.reverse_reverse]

theorem head_dropBlanksRight (h : ∀ c ∈ cs.head?, isBlankChar c = false) :
    ∀ c ∈ (dropBlanksRight cs).head?, isBlankChar c = false := by
  obtain ⟨more, hcs⟩ := dropBlanksRight_isPrefix cs
  intro c hc
  refine h c ?_
  rw [← hcs, List.head?_append, hc]
  rfl

theorem dropBlanks_eq_nil_iff : dropBlanks cs = [] ↔ cs.all isBlankChar = true := by
  rw [dropBlanks, List.dropWhile_eq_nil_iff, List.all_eq_true]

theorem dropBlanksRight_eq_nil_iff : dropBlanksRight cs = [] ↔ cs.all isBlankChar = true := by
  rw [dropBlanksRight, List.reverse_eq_nil_iff, dropBlanks_eq_nil_iff, List.all_reverse]

theorem dropBlanks_append (h : cs.all isBlankChar = true) (ds : List Char) : dropBlanks (cs ++ ds) = dropBlanks ds :=
  List.dropWhile_append_of_pos (List.all_eq_true.mp h)

theorem dropBlanksRight_append (h : ds.all isBlankChar = true) (cs : List Char) :
    dropBlanksRight (cs ++ ds) = dropBlanksRight cs := by
  rw [dropBlanksRight, dropBlanksRight, List.reverse_append, dropBlanks_append (by rwa [List.all_reverse])]

theorem dropBlanksRight_dropBlanks_append (h : ds.all isBlankChar = true) (cs : List Char) :
    dropBlanksRight (dropBlanks (cs ++ ds)) = dropBlanksRight (dropBlanks cs) := by
  rw [dropBlanks, List.dropWhile_append, ← dropBlanks, ← dropBlanks]
  split
  · next he => rw [dropBlanks_eq_nil_iff.mpr h, List.isEmpty_iff.mp he]
  · exact dropBlanksRight_append h (dropBlanks cs)

theorem exists_dropBlanks (cs : List Char) : ∃ front, front.all isBlankChar = true ∧ cs = front ++ dropBlanks cs :=
  ⟨cs.takeWhile isBlankChar, List.all_takeWhile, List.takeWhile_append_dropWhile.symm⟩

theorem exists_dropBlanksRight (cs : List Char) :
    ∃ back, back.all isBlankChar = true ∧ cs = dropBlanksRight cs ++ back := by
  obtain ⟨front, hf, hcs⟩ := exists_dropBlanks cs.reverse
  refine ⟨front.reverse, by rwa [List.all_reverse], ?_⟩
  rw [dropBlanksRight, ← List.reverse_append, ← hcs, List.reverse_reverse]

/-- Trimming keeps every character that is not white space. -/
theorem filter_dropBlanks {p : Char → Bool} (hp : ∀ c, isBlankChar c = true → p c = false) (cs : List Char) :
    (dropBlanks cs).filter p = cs.filter p := by
  induction cs with
  | nil => rfl
  | cons c cs ih =>
    rw [dropBlanks, List.dropWhile_cons]
    split
    · next hb => rw [List.filter_cons_of_neg (by simp [hp c hb]), ← ih, dropBlanks]
    · rfl

theorem filter_dropBlanksRight {p : Char → Bool} (hp : ∀ c, isBlankChar c = true → p c = false) (cs : List Char) :
    (dropBlanksRight cs).filter p = cs.filter p := by
  rw [dropBlanksRight, List.filter_reverse, filter_dropBlanks hp, ← List.filter_reverse, List.reverse_reverse]

end Chars

/-! ### Texts -/

section Texts
variable {s w : String}

@[simp] theorem toList_trimStart (s : String) : (trimStart s).toList = dropBlanks s.toList := by
  simp [trimStart]

@[simp] theorem toList_trimEnd (s : String) : (trimEnd s).toList = dropBlanksRight s.toList := by
  simp [trimEnd]

theorem startsClean_trimStart (s : String) : StartsClean (trimStart s) := by
  rw [StartsClean, toList_trimStart]
  exact head_dropBlanks s.toList

theorem endsClean_trimEnd (s : String) : EndsClean (trimEnd s) := by
  rw [EndsClean, toList_trimEnd]
  exact getLast_dropBlanksRight s.toList

theorem StartsClean.trimEnd (h : StartsClean s) : StartsClean (trimEnd s) := by
  rw [StartsClean, toList_trimEnd]
  exact head_dropBlanksRight h

theorem trimStart_eq_self (h : StartsClean s) : trimStart s = s := by
  rw [← String.toList_inj, toList_trimStart, dropBlanks_of_head h]

theorem trimEnd_eq_self (h : EndsClean s) : trimEnd s = s := by
  rw [← String.toList_inj, toList_trimEnd, dropBlanksRight_of_getLast h]

theorem trim_trim (s : String) : trim (trim s) = trim s := by
  have hs : StartsClean (trim s) := (startsClean_trimStart s).trimEnd
  have he : EndsClean (trim s) := endsClean_trimEnd (trimStart s)
  rw [trim, trimStart_eq_self hs, trimEnd_eq_self he]

theorem clean_of_trim_eq (h : trim s = s) : StartsClean s ∧ EndsClean s := by
  rw [← h]
  exact ⟨(startsClean_trimStart s).trimEnd, endsClean_trimEnd (trimStart s)⟩

theorem trim_isInfix (s : String) : (trim s).toList <:+: s.toList := by
  rw [trim, toList_trimEnd, toList_trimStart]
  exact (dropBlanksRight_isPrefix _).isInfix.trans (dropBlanks_suffix _).isInfix

theorem trimStart_eq_empty_iff : trimStart s = "" ↔ isBlank s = true := by
  rw [← String.toList_eq_nil_iff, toList_trimStart, dropBlanks_eq_nil_iff, isBlank]

theorem trimEnd_eq_empty_iff : trimEnd s = "" ↔ isBlank s = true := by
  rw [← String.toList_eq_nil_iff, toList_trimEnd, dropBlanksRight_eq_nil_iff, isBlank]

theorem trim_ne_empty (h : isBlank s = false) : trim s ≠ "" := by
  rw [trim, Ne, trimEnd_eq_empty_iff, isBlank, toList_trimStart]
  intro hb
  -- A blank rest of a text starts with white space, unless nothing is left.
  have hnil : dropBlanks s.toList = [] := by
    cases hd : dropBlanks s.toList with
    | nil => rfl
    | cons c cs =>
      have hc := head_dropBlanks s.toList c (by rw [hd]; rfl)
      rw [hd, List.all_cons, hc] at hb
      cases hb
  rw [isBlank, dropBlanks_eq_nil_iff.mp hnil] at h
  cases h

theorem isBlank_of_trim_eq (h : trim s = s) (hne : s ≠ "") : isBlank s = false := by
  rw [← Bool.not_eq_true]
  intro hb
  have hend : trimEnd "" = "" := trimEnd_eq_empty_iff.mpr rfl
  rw [trim, trimStart_eq_empty_iff.mpr hb, hend] at h
  exact hne h.symm

theorem trimStart_blank_append (hw : isBlank w = true) (s : String) : trimStart (w ++ s) = trimStart s := by
  rw [← String.toList_inj, toList_trimStart, toList_trimStart, String.toList_append, dropBlanks_append hw]

theorem trimEnd_append_blank (hw : isBlank w = true) (s : String) : trimEnd (s ++ w) = trimEnd s := by
  rw [← String.toList_inj, toList_trimEnd, toList_trimEnd, String.toList_append, dropBlanksRight_append hw]

theorem trim_blank_append (hw : isBlank w = true) (s : String) : trim (w ++ s) = trim s := by
  rw [trim, trimStart_blank_append hw, trim]

theorem trim_append_blank (hw : isBlank w = true) (s : String) : trim (s ++ w) = trim s := by
  simp only [trim, ← String.toList_inj, toList_trimEnd, toList_trimStart, String.toList_append]
  exact dropBlanksRight_dropBlanks_append hw s.toList

theorem exists_trimStart (s : String) : ∃ front, isBlank front = true ∧ s = front ++ trimStart s := by
  obtain ⟨front, hfront, hs⟩ := exists_dropBlanks s.toList
  refine ⟨String.ofList front, by simpa [isBlank] using hfront, ?_⟩
  rw [← String.toList_inj, String.toList_append, String.toList_ofList, toList_trimStart, ← hs]

theorem exists_trimEnd (s : String) : ∃ back, isBlank back = true ∧ s = trimEnd s ++ back := by
  obtain ⟨back, hback, hs⟩ := exists_dropBlanksRight s.toList
  refine ⟨String.ofList back, by simpa [isBlank] using hback, ?_⟩
  rw [← String.toList_inj, String.toList_append, String.toList_ofList, toList_trimEnd, ← hs]

/-- A text is its trimmed form with white space around it. -/
theorem exists_trim (s : String) :
    ∃ front back, isBlank front = true ∧ isBlank back = true ∧ s = front ++ trim s ++ back := by
  obtain ⟨front, hfront, hs⟩ := exists_trimStart s
  obtain ⟨back, hback, ht⟩ := exists_trimEnd (trimStart s)
  refine ⟨front, back, hfront, hback, ?_⟩
  rw [trim, String.append_assoc, ← ht, ← hs]

theorem isBlank_append (s t : String) : isBlank (s ++ t) = (isBlank s && isBlank t) := by
  simp [isBlank]

end Texts

end Placeholder.Text
