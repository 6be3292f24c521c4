import Placeholder.Proofs.Bit.Fragments

/-! # The canonical cut

The bits of a text that is not empty are its only canonical cut: they lie end to end, their kinds are those that
their texts look like, and their literals hold and make no marker. Texts that are left whole without a scan are
no exception, since there is no marker in them. -/

namespace Placeholder.Bit

/-- A bit without its offset. -/
def fragment (bit : Bit) : Fragment :=
  (bit.kind, bit.text.toList)

theorem fragment_eq_iff {bit : Bit} {kind : Kind} {text : String} :
    bit.fragment = (kind, text.toList) ↔ bit.kind = kind ∧ bit.text = text := by
  rw [fragment, Prod.mk.injEq, String.toList_inj]

/-- Bits that lie end to end from an offset on. -/
def Contiguous : Nat → List Bit → Prop
  | _, [] => True
  | position, bit :: rest => bit.position = position ∧ Contiguous bit.stop rest

/-- The form that the bits of a text have. -/
structure Canonical (bits : List Bit) : Prop where
  contiguous : Contiguous 0 bits
  nonempty : ∀ bit ∈ bits, bit.text ≠ ""
  kinds : ∀ bit ∈ bits, bit.kind = Kind.ofText bit.text
  plain : ∀ bit ∈ bits, bit.kind = .literal → Plain bit.text.toList
  parts : bits.IsChain fun a b => Parts a.fragment b.fragment

/-! ### Offsets -/

theorem map_fragment_place (position : Nat) (fs : List Fragment) : (place position fs).map fragment = fs := by
  induction fs generalizing position with
  | nil => rfl
  | cons f fs ih =>
    rw [place, List.map_cons, ih]
    simp [fragment]

theorem contiguous_place (position : Nat) (fs : List Fragment) : Contiguous position (place position fs) := by
  induction fs generalizing position with
  | nil => trivial
  | cons f fs ih => exact ⟨rfl, ih _⟩

theorem place_of_contiguous {position : Nat} {bits : List Bit} (h : Contiguous position bits) :
    place position (bits.map fragment) = bits := by
  induction bits generalizing position with
  | nil => rfl
  | cons bit bits ih =>
    obtain ⟨rfl, h⟩ := h
    have hbit : (⟨bit.kind, String.ofList bit.text.toList, bit.position⟩ : Bit) = bit := by rw [String.ofList_toList]
    simp only [List.map_cons, fragment, place, hbit, ih h]

/-! ### Looks -/

theorem toList_of_ofText {text : String} (h : Kind.ofText text ≠ .literal) : text.toList = (Kind.ofText text).marker := by
  revert h
  unfold Kind.ofText
  split
  · exact fun _ => rfl
  · exact fun _ => rfl
  · exact fun _ => rfl
  · exact fun _ => rfl
  · exact fun h => absurd rfl h

theorem ofText_marker {kind : Kind} (h : kind ≠ .literal) : Kind.ofText (String.ofList kind.marker) = kind := by
  cases kind with
  | literal => exact absurd rfl h
  | opening | closing | positional | named => rfl

theorem not_plain_marker {kind : Kind} (h : kind ≠ .literal) : ¬Plain kind.marker := by
  intro hp
  cases kind with
  | literal => exact h rfl
  | opening => exact hp.opening List.infix_rfl
  | closing => exact hp.closing List.infix_rfl
  | positional => exact hp.positional List.mem_cons_self
  | named => exact hp.named List.mem_cons_self

theorem fits_fragment {bit : Bit} : Fits bit.fragment ↔
    bit.text ≠ "" ∧ bit.kind = Kind.ofText bit.text ∧ (bit.kind = .literal → Plain bit.text.toList) := by
  have hempty : bit.text = "" ↔ bit.text.toList = [] := String.toList_eq_nil_iff.symm
  by_cases hk : bit.kind = .literal
  · have hfits : Fits bit.fragment ↔ bit.text.toList ≠ [] ∧ Plain bit.text.toList := by
      rw [fragment, hk]
      rfl
    rw [hfits, hk, Ne, Ne, hempty]
    constructor
    · rintro ⟨hne, hp⟩
      refine ⟨hne, ?_, fun _ => hp⟩
      by_contra hl
      have hl' : Kind.ofText bit.text ≠ .literal := fun e => hl e.symm
      exact not_plain_marker hl' (toList_of_ofText hl' ▸ hp)
    · rintro ⟨hne, -, hp⟩
      exact ⟨hne, hp rfl⟩
  · rw [fragment, fits_marker hk]
    constructor
    · intro ht
      refine ⟨?_, ?_, fun e => absurd e hk⟩
      · rw [Ne, hempty, ht]
        exact marker_ne_nil hk
      · rw [← String.ofList_toList (s := bit.text), ht, ofText_marker hk]
    · rintro ⟨-, hl, -⟩
      rw [hl, ← toList_of_ofText (hl ▸ hk)]

theorem canonical_iff {bits : List Bit} : Canonical bits ↔ Contiguous 0 bits ∧ Clean (bits.map fragment) := by
  constructor
  · intro h
    refine ⟨h.contiguous, fun f hf => ?_, List.isChain_map _ |>.mpr h.parts⟩
    obtain ⟨bit, hb, rfl⟩ := List.mem_map.mp hf
    exact fits_fragment.mpr ⟨h.nonempty bit hb, h.kinds bit hb, h.plain bit hb⟩
  · rintro ⟨hc, hf, hp⟩
    have hfits := fun bit (hb : bit ∈ bits) => fits_fragment.mp (hf _ (List.mem_map_of_mem hb))
    exact ⟨hc, fun bit hb => (hfits bit hb).1, fun bit hb => (hfits bit hb).2.1, fun bit hb => (hfits bit hb).2.2,
      (List.isChain_map _).mp hp⟩

/-! ### Texts that are left whole -/

theorem plain_of_absent {cs : List Char} (h : ∀ c ∈ ['{', '}', ':', '|'], c ∉ cs) : Plain cs := by
  refine ⟨⟨fun hi => ?_, fun hi => ?_⟩, h ':' (by simp), h '|' (by simp)⟩
  · exact h '{' (by simp) (hi.subset List.mem_cons_self)
  · exact h '}' (by simp) (hi.subset List.mem_cons_self)

theorem plain_of_blank {cs : List Char} (h : cs.all Text.isBlankChar = true) : Plain cs := by
  have hmarks : ['{', '}', ':', '|'].all (fun c => !Text.isBlankChar c) = true := by decide
  refine plain_of_absent fun c hc hm => ?_
  have hmark := List.all_eq_true.mp hmarks c hc
  have hblank := List.all_eq_true.mp h c hm
  rw [hblank] at hmark
  cases hmark

theorem plain_append {cs ds : List Char} (hc : Plain cs) (hd : Plain ds)
    (joint : ∀ c ∈ cs.getLast?, ∀ d ∈ ds.head?, Single c d) : Plain (cs ++ ds) := by
  refine ⟨unpaired_append.mpr ⟨hc.toUnpaired, hd.toUnpaired, joint⟩, ?_, ?_⟩ <;> rw [List.mem_append, not_or]
  · exact ⟨hc.positional, hd.positional⟩
  · exact ⟨hc.named, hd.named⟩

theorem ne_brace_of_blank {c : Char} (h : Text.isBlankChar c = true) : c ≠ '{' ∧ c ≠ '}' := by
  constructor <;> rintro rfl <;> revert h <;> decide

theorem plain_append_blank {cs ds : List Char} (h : Plain cs) (hd : ds.all Text.isBlankChar = true) :
    Plain (cs ++ ds) := by
  refine plain_append h (plain_of_blank hd) fun c _ d hm => ?_
  obtain ⟨ho, hc⟩ := ne_brace_of_blank (List.all_eq_true.mp hd d (List.mem_of_mem_head? hm))
  exact ⟨fun _ => ho, fun _ => hc⟩

theorem plain_blank_append {cs ds : List Char} (h : Plain cs) (hd : ds.all Text.isBlankChar = true) :
    Plain (ds ++ cs) := by
  refine plain_append (plain_of_blank hd) h fun d hm c _ => ?_
  obtain ⟨ho, hc⟩ := ne_brace_of_blank (List.all_eq_true.mp hd d (List.mem_of_mem_getLast? hm))
  exact ⟨fun e => absurd e ho, fun e => absurd e hc⟩

theorem plain_of_isVerbatim {text : String} (h : isVerbatim text = true) : Plain text.toList := by
  simp only [isVerbatim, Bool.or_eq_true, beq_iff_eq] at h
  rcases h with (rfl | rfl) | hb
  · exact plain_of_absent (by simp)
  · exact plain_of_absent (by simp)
  · exact plain_of_blank hb

theorem fragments_of_plain {cs : List Char} (hne : cs ≠ []) (hp : Plain cs) : fragments cs = [(.literal, cs)] := by
  have h : fragments (cs ++ []) = (.literal, cs) :: fragments [] := fragments_literal_append hne hp (by simp [fragments])
  rwa [List.append_nil, fragments] at h

/-- A text that is left whole is one that the scan finds nothing in. -/
theorem scan_eq_place {text : String} (h : text ≠ "") : scan text = place 0 (fragments text.toList) := by
  unfold scan
  split
  · next hv =>
    rw [fragments_of_plain (by simpa using h) (plain_of_isVerbatim hv)]
    simp [place]
  · rfl

/-! ### The only canonical cut -/

theorem chars_map_fragment (bits : List Bit) : chars (bits.map fragment) = (String.join (bits.map Bit.text)).toList := by
  rw [String.toList_join, chars, List.flatMap_map, List.flatMap_map]
  rfl

/-- The bits of a text are its only canonical cut, and a text that is left whole is cut as the scan would cut it. -/
theorem scan_eq_iff_canonical (text : String) (h : text ≠ "") :
    (∀ bits, scan text = bits ↔ String.join (bits.map Bit.text) = text ∧ Canonical bits) ∧
      scan text = place 0 (fragments text.toList) := by
  refine ⟨fun bits => ?_, scan_eq_place h⟩
  rw [scan_eq_place h, canonical_iff, ← String.toList_inj, ← chars_map_fragment]
  constructor
  · rintro rfl
    rw [map_fragment_place]
    exact ⟨chars_fragments _, contiguous_place _ _, clean_fragments _⟩
  · rintro ⟨ht, hc, hclean⟩
    rw [← ht, fragments_of_clean hclean, place_of_contiguous hc]

theorem canonical_triple_braces : "{{{é}}}" ≠ "" ∧
    Canonical [⟨.opening, "\x7b\x7b", 0⟩, ⟨.literal, "\x7bé", 2⟩, ⟨.closing, "\x7d\x7d", 5⟩, ⟨.literal, "\x7d", 7⟩] :=
  ⟨by decide, (((scan_eq_iff_canonical "{{{é}}}" (by decide)).1 _).mp (by decide)).2⟩

end Placeholder.Bit
