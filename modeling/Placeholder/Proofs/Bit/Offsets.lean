import Placeholder.Proofs.Bit.Canonical
import Placeholder.Proofs.Text.Cut

/-! # Where bits lie

The bits of a text lie end to end from its start to its end, so that the offset of a bit is the size of the text before
it, and the bits before an offset are a front of the list. -/

namespace Placeholder.Bit

/-- The text that bits make up. -/
def joined (bits : List Bit) : String :=
  String.join (bits.map Bit.text)

@[simp] theorem joined_nil : joined [] = "" := rfl

@[simp] theorem joined_cons (bit : Bit) (bits : List Bit) : joined (bit :: bits) = bit.text ++ joined bits :=
  String.join_cons

@[simp] theorem joined_append (front back : List Bit) : joined (front ++ back) = joined front ++ joined back := by
  simp [joined]

theorem toList_joined (bits : List Bit) : (joined bits).toList = chars (bits.map fragment) :=
  (chars_map_fragment bits).symm

/-! ### The bits of a text -/

section Scan
variable {text : String}

theorem map_fragment_scan (h : text ≠ "") : (scan text).map fragment = fragments text.toList := by
  rw [scan_eq_place h, map_fragment_place]

theorem clean_scan (h : text ≠ "") : Clean ((scan text).map fragment) := by
  rw [map_fragment_scan h]
  exact clean_fragments text.toList

theorem fits_scan (h : text ≠ "") : ∀ bit ∈ scan text, Fits bit.fragment :=
  fun _ hb => (clean_scan h).fits _ (List.mem_map_of_mem hb)

theorem scan_empty : scan "" = [⟨.literal, "", 0⟩] := rfl

theorem joined_scan (text : String) : joined (scan text) = text := by
  by_cases h : text = ""
  · subst h
    rfl
  · rw [← String.toList_inj, toList_joined, map_fragment_scan h, chars_fragments]

theorem scan_ne_nil (text : String) : scan text ≠ [] := by
  intro h
  have ht : text = "" := by rw [← joined_scan text, h, joined_nil]
  rw [ht, scan_empty] at h
  cases h

theorem contiguous_scan (text : String) : Contiguous 0 (scan text) := by
  by_cases h : text = ""
  · subst h
    exact ⟨rfl, trivial⟩
  · rw [scan_eq_place h]
    exact contiguous_place 0 _

/-- A text holds two opening braces in a row if one of its bits opens a token. -/
theorem mayHoldToken_iff : mayHoldToken text = true ↔ ∃ bit ∈ scan text, bit.kind = .opening := by
  rw [mayHoldToken, Text.occurs_iff]
  by_cases ht : text = ""
  · subst ht
    exact iff_of_false (by decide) (by simp [scan_empty])
  constructor
  · intro h
    obtain ⟨f, hf, hk⟩ := exists_opening h
    rw [← map_fragment_scan ht] at hf
    obtain ⟨bit, hb, rfl⟩ := List.mem_map.mp hf
    exact ⟨bit, hb, hk⟩
  · rintro ⟨bit, hb, hk⟩
    have hfits := fits_scan ht bit hb
    have hinfix := snd_isInfix_chars (List.mem_map_of_mem hb : bit.fragment ∈ (scan text).map fragment)
    rw [fragment, hk] at hfits
    have hmarker : bit.text.toList = "\x7b\x7b".toList := hfits
    rwa [← toList_joined, joined_scan, fragment, hmarker] at hinfix

end Scan

/-! ### Offsets -/

section Offsets
variable {text : String} {position : Nat} {bit : Bit} {front back : List Bit}

theorem contiguous_append : Contiguous position (front ++ back) ↔
    Contiguous position front ∧ Contiguous (position + (joined front).utf8ByteSize) back := by
  induction front generalizing position with
  | nil => simp [Contiguous]
  | cons bit front ih =>
    simp only [List.cons_append, Contiguous, ih, joined_cons, String.utf8ByteSize_append, and_assoc]
    refine and_congr_right fun hp => ?_
    rw [stop, hp, Nat.add_assoc]

theorem position_of_scan (h : scan text = front ++ bit :: back) : bit.position = (joined front).utf8ByteSize := by
  have hc := contiguous_scan text
  rw [h, contiguous_append] at hc
  simpa using hc.2.1

theorem contiguous_mem (h : Contiguous position front) (hb : bit ∈ front) :
    position ≤ bit.position ∧ bit.stop ≤ position + (joined front).utf8ByteSize := by
  induction front generalizing position with
  | nil => cases hb
  | cons first front ih =>
    obtain ⟨rfl, hrest⟩ := h
    rw [joined_cons, String.utf8ByteSize_append]
    rcases List.mem_cons.mp hb with rfl | hb
    · simp only [stop]
      omega
    · have := ih hrest hb
      simp only [stop] at this ⊢
      omega

theorem stop_pos_of_fits (h : Fits bit.fragment) : bit.position < bit.stop := by
  have hne : bit.text ≠ "" := (fits_fragment.mp h).1
  have := mt String.utf8ByteSize_eq_zero_iff.mp hne
  simp only [stop]
  omega

/-- Bits that lie before the offset of one of them are those that come before it. -/
theorem filter_position_scan (h : scan text = front ++ back) (hne : text ≠ "") :
    (scan text).filter (·.position < (joined front).utf8ByteSize) = front := by
  have hc := contiguous_scan text
  have hf := fits_scan hne
  rw [h, contiguous_append, Nat.zero_add] at hc
  rw [h, List.forall_mem_append] at hf
  rw [h, List.filter_append, List.filter_eq_self.mpr, List.filter_eq_nil_iff.mpr, List.append_nil]
  · intro bit hb
    have := contiguous_mem hc.2 hb
    simpa using this.1
  · intro bit hb
    have hlies := contiguous_mem hc.1 hb
    have := stop_pos_of_fits (hf.1 bit hb)
    simp
    omega

end Offsets

end Placeholder.Bit
