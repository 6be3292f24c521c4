import Placeholder.Proofs.Bit.Fragments

/-! # Fragments in a row

When fragments that fit may stand in a row. That no two of them are literals and that no brace runs into a marker
are kept apart, since the pieces of a text as meant have the first property always and the second only sometimes. -/

namespace Placeholder.Bit

/-- Two fragments in a row, not both literals. If it is `strict`, the first is no literal with a brace at its end that
    the second, a marker, would be taken apart for. -/
def Follows (strict : Prop) (a b : Fragment) : Prop :=
  a.1 = .literal → b.1 ≠ .literal ∧
    (strict → (b.1 = .opening → a.2.getLast? ≠ some '{') ∧ (b.1 = .closing → a.2.getLast? ≠ some '}'))

section Follows
variable {strict : Prop} {fs : List Fragment}

theorem follows_of_marker {a b : Fragment} (h : a.1 ≠ .literal) : Follows strict a b :=
  fun e => absurd e h

theorem follows_true_iff_parts {a b : Fragment} : Follows True a b ↔ Parts a b := by
  simp [Follows, Parts]

theorem isChain_fragments (cs : List Char) : (fragments cs).IsChain (Follows strict) :=
  (clean_fragments cs).parts.imp fun _ _ h hk => ⟨(h hk).1, fun _ => (h hk).2⟩

theorem isChain_consChar_blank (h : ∀ f ∈ fs.head?, Fits f) :
    (consChar ' ' fs).IsChain (Follows strict) ↔ fs.IsChain (Follows strict) := by
  by_cases hl : ∀ f ∈ fs.head?, f.1 ≠ .literal
  · rw [consChar_of_ne hl, List.isChain_cons, and_iff_right]
    intro f hf _
    exact ⟨hl f hf, fun _ => ⟨fun _ => by simp, fun _ => by simp⟩⟩
  · cases fs with
    | nil => exact absurd nofun hl
    | cons f fs =>
      obtain ⟨kind, cs⟩ := f
      obtain rfl : kind = .literal := by simpa using hl
      have hlast : (' ' :: cs).getLast? = cs.getLast? := List.getLast?_cons_of_ne_nil (h _ rfl).1
      rw [consChar_literal, List.isChain_cons, List.isChain_cons]
      simp only [Follows, hlast]

/-- A text without pairs of braces, before a marker made of one: only its last character matters. -/
theorem follows_last_fragment {cs : List Char} {kind : Kind} {c : Char} (h : Unpaired cs) (hc : kind.Doubles c) :
    (∀ f ∈ (fragments cs).getLast?, Follows strict f (kind, kind.marker)) ↔ (strict → cs.getLast? ≠ some c) := by
  have chars_eq := chars_fragments cs
  rcases List.eq_nil_or_concat (fragments cs) with hnil | ⟨front, ⟨last, ds⟩, hlast⟩
  · rw [hnil] at chars_eq ⊢
    subst chars_eq
    exact ⟨nofun, nofun⟩
  · have hmem : (last, ds) ∈ fragments cs := by simp [hlast]
    have hf := (clean_fragments cs).fits _ hmem
    rw [hlast, List.concat_eq_append] at chars_eq ⊢
    have hends : cs.getLast? = ds.getLast? := by
      rw [← chars_eq, chars_append, List.getLast?_append_of_ne_nil, chars_cons, chars_nil, List.append_nil]
      rw [chars_cons, chars_nil, List.append_nil]
      exact fits_ne_nil hf
    rw [hends]
    cases last with
    | literal => rcases hc with ⟨rfl, rfl⟩ | ⟨rfl, rfl⟩ <;> simp [Follows]
    | opening => exact absurd rfl (textual_of_unpaired h _ hmem).1
    | closing => exact absurd rfl (textual_of_unpaired h _ hmem).2
    | positional | named =>
      obtain rfl : ds = Kind.marker _ := hf
      rcases hc with ⟨-, rfl⟩ | ⟨-, rfl⟩ <;> simp [Follows, Kind.marker]

end Follows

end Placeholder.Bit
