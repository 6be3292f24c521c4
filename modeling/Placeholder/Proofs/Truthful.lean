import Placeholder.Proofs.Accepted

/-! # Errors tell the truth

An error shows what stands at its offset. Of the faults that bits could have in any order, some do not come about in the
bits of a text: after the name of a token there is no second literal, since literals do not stand side by side, and
whatever has a name is a token that is still open. So each kind of fault has its own kinds of bits, and for each of them
there is a tip. -/

namespace Placeholder
open Bit Grammar Stage

/-- A fault that describes a bit of a text, or the end of the text. -/
inductive Truthful (text : String) (implied : Bool) (limit : Nat) : Fault → Prop where
  /-- The text ends where a name is needed, or the end of a token. -/
  | ended {expected : Kind} (needed : expected = .literal ∨ expected = .closing) :
      Truthful text implied limit ⟨.mismatch expected none "", text.utf8ByteSize⟩
  /-- A marker stands in the place of a name. -/
  | unnamed {bit : Bit} (member : bit ∈ scan text) (kind : bit.kind ≠ .literal) :
      Truthful text implied limit ⟨.mismatch .literal (some bit.kind) bit.text, bit.position⟩
  /-- A token starts where one that has only its name has to end. -/
  | unclosed {bit : Bit} (member : bit ∈ scan text) (kind : bit.kind = .opening) :
      Truthful text implied limit ⟨.mismatch .closing (some bit.kind) bit.text, bit.position⟩
  /-- A token ends where none is open. -/
  | stray {bit : Bit} (member : bit ∈ scan text) (kind : bit.kind = .closing) (mixed : implied = false) :
      Truthful text implied limit ⟨.stray bit.kind bit.text, bit.position⟩
  /-- A marker of two braces stands after the only token. -/
  | trailing {bit : Bit} (member : bit ∈ scan text) (kind : bit.kind = .opening ∨ bit.kind = .closing)
      (sole : implied = true) : Truthful text implied limit ⟨.trailing bit.kind bit.text, bit.position⟩
  | blankName {bit : Bit} (member : bit ∈ scan text) (kind : bit.kind = .literal)
      (blank : Text.isBlank bit.text = true) : Truthful text implied limit ⟨.blankName bit.text, bit.position⟩
  | tooDeep {bit : Bit} (member : bit ∈ scan text) (kind : bit.kind = .opening) :
      Truthful text implied limit ⟨.tooDeep limit, bit.position⟩

/-! ### What is known of a stage -/

namespace Stage
variable {limit : Nat} {implied : Bool} {stage mid last : Stage} {front bits : List Bit} {bit : Bit}

/-- Outside of tokens there is nothing but content. -/
def Inside (stage : Stage) : Prop :=
  stage.phase ≠ .content → 0 < stage.depth

theorem inside_start (implied : Bool) : (start implied).Inside := by
  cases implied with
  | false => exact fun h => absurd rfl h
  | true => exact fun _ => Nat.one_pos

theorem inside_next (hi : stage.Inside) (h : stage.next limit implied bit = .ok mid) : mid.Inside := by
  intro hp
  rcases next_eq_ok h with ⟨-, -, -, rfl⟩ | ⟨-, -, -, rfl⟩ | ⟨-, hd, hn⟩
  · exact Nat.succ_pos stage.depth
  · exact absurd rfl hp
  · have hinput : mid.phase = .input := by
      cases hphase : mid.phase with
      | content => exact absurd hphase hp
      | name => exact absurd hphase hn
      | input => rfl
    have hname : stage.phase = .name := (name_of_next h hinput).2.1
    rw [hd]
    exact hi (by simp [hname])

theorem inside_run (hi : stage.Inside) (h : run limit implied stage bits = .ok last) : last.Inside := by
  induction bits generalizing stage with
  | nil =>
    cases h
    exact hi
  | cons bit bits ih =>
    obtain ⟨mid, hn, hr⟩ := run_cons_eq_ok h
    exact ih (inside_next hi hn) hr

end Stage

/-! ### Faults of a text -/

section Faults
variable {text : String} {limit : Nat} {implied : Bool} {front back : List Bit} {bit : Bit} {mid last : Stage}
  {fault : Fault}

/-- No two literals stand side by side in the bits of a text. -/
theorem parts_of_scan (h : scan text = front ++ bit :: back) :
    ∀ before ∈ front.getLast?, Parts before.fragment bit.fragment := by
  intro before hb
  have ht : text ≠ "" := by
    rintro rfl
    obtain ⟨more, rfl⟩ := List.getLast?_eq_some_iff.mp hb
    have hlength := congrArg List.length h
    simp [scan_empty] at hlength
    omega
  have hparts := (clean_scan ht).parts
  rw [h, List.map_append, List.map_cons, List.isChain_append] at hparts
  exact hparts.2.2 before.fragment (by simpa using ⟨before, hb, rfl⟩) bit.fragment rfl

theorem not_literal_of_input (h : scan text = front ++ bit :: back)
    (hr : run limit implied (start implied) front = .ok mid) (hp : mid.phase = .input) : bit.kind ≠ .literal := by
  obtain ⟨name, hn, hk⟩ := literal_of_run hr hp
  exact (parts_of_scan h name hn hk).1

theorem truthful_of_next (h : scan text = front ++ bit :: back)
    (hr : run limit implied (start implied) front = .ok mid) (hn : mid.next limit implied bit = .error fault) :
    Truthful text implied limit fault := by
  have member : bit ∈ scan text := h ▸ List.mem_append_right front List.mem_cons_self
  have inside : mid.Inside := inside_run (inside_start implied) hr
  have opens (hp : mid.phase = .input) (hk : bit.kind = .literal ∨ bit.kind = .opening) : bit.kind = .opening :=
    hk.resolve_left (not_literal_of_input h hr hp)
  rcases next_eq_error hn with ⟨hk, -, rfl⟩ | ⟨-, hk, hb, rfl⟩ | ⟨-, hk, rfl⟩ | ⟨hp, hk, -, rfl⟩ | ⟨hd, hk, rfl⟩
  · exact .tooDeep member hk
  · exact .blankName member hk hb
  · exact .unnamed member hk
  · exact .unclosed member (opens hp hk)
  · cases implied with
    | true => exact .trailing member (hk.elim Or.inr fun ⟨hp, hk⟩ => Or.inl (opens hp hk)) rfl
    | false =>
      rcases hk with hk | ⟨hp, -⟩
      · exact .stray member hk rfl
      · -- The token that has been named is still open.
        have := inside (by simp [hp])
        simp at hd
        omega

theorem truthful_of_early (h : last.early? implied text.utf8ByteSize = some fault) :
    Truthful text implied limit fault := by
  unfold early? at h
  split at h
  · cases h
    exact .ended (Or.inl rfl)
  · split at h <;> cases h
    exact .ended (Or.inr rfl)

theorem truthful_of_fault (h : fault? limit implied text.utf8ByteSize (scan text) = some fault) :
    Truthful text implied limit fault := by
  rcases fault?_cases h with ⟨front, bit, back, mid, hs, hr, hn⟩ | ⟨last, -, he⟩
  · exact truthful_of_next hs hr hn
  · exact truthful_of_early he

end Faults

/-! ### What a true fault shows -/

namespace Truthful
variable {text : String} {limit : Nat} {implied : Bool} {fault : Fault}

theorem isValid_position {bit : Bit} (h : bit ∈ scan text) : String.Pos.Raw.IsValid text ⟨bit.position⟩ := by
  obtain ⟨front, back, hs⟩ := List.append_of_mem h
  have htext : text = joined front ++ joined (bit :: back) := by rw [← joined_append, ← hs, joined_scan]
  exact String.Pos.Raw.isValid_iff_exists_append.mpr
    ⟨joined front, joined (bit :: back), htext, congrArg String.Pos.Raw.mk (position_of_scan hs)⟩

theorem isValid (h : Truthful text implied limit fault) : String.Pos.Raw.IsValid text ⟨fault.position⟩ := by
  cases h with
  | ended needed => exact String.Pos.Raw.isValid_iff_exists_append.mpr ⟨text, "", by simp, rfl⟩
  | unnamed member | unclosed member | stray member | trailing member | blankName member | tooDeep member =>
    exact isValid_position member

end Truthful

section Parse
variable {text : String} {implied trim : Bool} {limit : Nat} {error : ParseError}

end Parse

end Placeholder
