import Placeholder.Proofs.Accepted

/-! # Errors point at the first hopeless bit

The bits before the offset of an error can still be continued to an accepted list of bits, and the bit at that offset
cannot: no list of bits after it mends it. Where no bit lies at the offset, it is the end of the text. -/

namespace Placeholder
open Bit Grammar Stage

/-- A reader of these bits reads them all. -/
def Accepts (limit : Nat) (implied trim : Bool) (bits : List Bit) : Prop :=
  ∃ nodes, ((Reader.ofBits bits limit).sequence ⟨true, trim⟩ implied).1 = .ok nodes

section Accepts
variable {limit : Nat} {implied trim : Bool} {bits front more : List Bit} {mid : Stage} {fault : Fault}

theorem accepts_iff : Accepts limit implied trim bits ↔
    ∃ last, run limit implied (start implied) bits = .ok last ∧ last.phase ≠ .name ∧ last.depth ≤ implied.toNat := by
  rw [Accepts, reader_sequence_ok_iff (by rfl)]
  show fault? limit implied _ bits = none ↔ _
  unfold fault?
  cases run limit implied (start implied) bits with
  | ok last => simp [early?_eq_none_iff]
  | error fault => simp

theorem exists_accepts (trim : Bool) (h : run limit implied (start implied) front = .ok mid) :
    ∃ more, Accepts limit implied trim (front ++ more) := by
  obtain ⟨more, last, hr, hlast⟩ := exists_ended limit mid
  exact ⟨more, accepts_iff.mpr ⟨last, by rw [run_append h, hr], hlast⟩⟩

theorem not_accepts (h : run limit implied (start implied) front = .error fault) :
    ¬Accepts limit implied trim (front ++ more) := by
  rw [accepts_iff, run_append_error h]
  rintro ⟨last, hr, -⟩
  cases hr

end Accepts

/-- The bits that lie before the offset of a bit of a text. -/
theorem before_bit {text : String} {front back : List Bit} {bit : Bit} (h : scan text = front ++ bit :: back) :
    (scan text).filter (·.position < bit.position) = front := by
  rw [position_of_scan h]
  by_cases ht : text = ""
  · -- The one bit of the empty text is empty, and nothing comes before it.
    subst ht
    rw [scan_empty] at h ⊢
    obtain rfl : front = [] := by
      cases front with
      | nil => rfl
      | cons first front => simp at h
    rfl
  · exact filter_position_scan h ht

theorem bit_of_position {text : String} {front back : List Bit} {bit other : Bit} (h : scan text = front ++ bit :: back)
    (ho : other ∈ scan text) (hp : other.position = bit.position) : other = bit := by
  obtain ⟨first, last, hs⟩ := List.append_of_mem ho
  have hfirst := before_bit hs
  rw [hp, before_bit h] at hfirst
  subst hfirst
  have := List.append_cancel_left (h.symm.trans hs)
  exact (List.cons.inj this).1.symm

/-- The end of the empty text is no fault of its own. -/
theorem ne_empty_of_early {text : String} {implied : Bool} {limit stop : Nat} {last : Stage} {fault : Fault}
    (hr : run limit implied (start implied) (scan text) = .ok last) (he : last.early? implied stop = some fault) :
    text ≠ "" := by
  rintro rfl
  cases implied
  · cases hr
    cases he
  · cases hr

/-- The bits before the offset of an error can be continued to bits that are accepted, the bit at the offset cannot
    follow them, whatever comes after it, and without a bit there the offset is the end of the text. -/
theorem viable_before_error {text : String} {implied trim : Bool} {limit : Nat} {error : ParseError}
    (h : parse text implied trim limit = .error error) :
    (∃ more, Accepts limit implied trim ((scan text).filter (·.position < error.position) ++ more)) ∧
    (∀ bit ∈ scan text, bit.position = error.position → ∀ more,
      ¬Accepts limit implied trim ((scan text).filter (·.position < error.position) ++ [bit] ++ more)) ∧
    ((∀ bit ∈ scan text, bit.position ≠ error.position) →
      error.position = text.utf8ByteSize ∧ (scan text).filter (·.position < error.position) = scan text) := by
  obtain ⟨fault, hf, rfl⟩ := parse_eq_error_iff.mp h
  have hposition : (ParseError.wrap text (.fault fault)).position = fault.position := rfl
  rw [hposition]
  rcases fault?_cases hf with ⟨front, bit, back, mid, hs, hr, hn⟩ | ⟨last, hr, he⟩
  · rw [position_next hn, before_bit hs]
    refine ⟨exists_accepts trim hr, fun other ho hp more => ?_, fun hnone => ?_⟩
    · obtain rfl := bit_of_position hs ho hp
      exact not_accepts (by rw [run_append hr, run_cons_error hn])
    · exact absurd rfl (hnone bit (by simp [hs]))
  · have hne := ne_empty_of_early hr he
    have hall : (scan text).filter (·.position < text.utf8ByteSize) = scan text := by
      have := filter_position_scan (List.append_nil (scan text)).symm hne
      rwa [joined_scan] at this
    rw [position_early he, hall]
    refine ⟨exists_accepts trim hr, fun bit hb hp => ?_, fun _ => ⟨rfl, rfl⟩⟩
    rw [← hall, List.mem_filter] at hb
    simp [hp] at hb

/-- A blank name two levels down: its opening marker can still be continued, the name cannot. -/
theorem viable_before_blank_name :
    parse "{{A:{{ }}}}" false false 1 =
        .error (.wrap "{{A:{{ }}}}" (.fault ⟨.blankName " ", 6⟩)) ∧
      (∃ more, Accepts 1 false false
        ([⟨.opening, "\x7b\x7b", 0⟩, ⟨.literal, "A", 2⟩, ⟨.positional, ":", 3⟩, ⟨.opening, "\x7b\x7b", 4⟩] ++ more)) ∧
      ∀ more, ¬Accepts 1 false false
        ([⟨.opening, "\x7b\x7b", 0⟩, ⟨.literal, "A", 2⟩, ⟨.positional, ":", 3⟩, ⟨.opening, "\x7b\x7b", 4⟩] ++
          [⟨.literal, " ", 6⟩] ++ more) := by
  have hscan : scan "{{A:{{ }}}}" = [⟨.opening, "\x7b\x7b", 0⟩, ⟨.literal, "A", 2⟩,
      ⟨.positional, ":", 3⟩, ⟨.opening, "\x7b\x7b", 4⟩, ⟨.literal, " ", 6⟩, ⟨.closing, "\x7d\x7d", 7⟩,
      ⟨.closing, "\x7d\x7d", 9⟩] := by decide
  have hread : parse "{{A:{{ }}}}" false false 1 =
      .error (.wrap "{{A:{{ }}}}" (.fault ⟨.blankName " ", 6⟩)) := by
    refine parse_eq_error_iff.mpr ⟨_, ?_, rfl⟩
    rw [hscan]
    decide
  obtain ⟨hmore, hless, -⟩ := viable_before_error hread
  rw [hscan] at hmore hless
  exact ⟨hread, hmore, hless ⟨.literal, " ", 6⟩ (by decide) rfl⟩

end Placeholder
