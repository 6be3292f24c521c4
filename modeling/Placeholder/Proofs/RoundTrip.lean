import Placeholder.Proofs.Accepted
import Placeholder.Proofs.Grammar.Form
import Placeholder.Proofs.Grammar.Signs
import Placeholder.Proofs.Grammar.Spelling

/-! # Reading what was written

A legible tree is read back from its text if its braces are apart, and only then. What is read from a text is
legible, so that reading, writing and reading again comes to the same nodes except where trimming has brought a
brace next to a marker. -/

namespace Placeholder
open Bit Node Grammar

theorem token_alone {limit depth : Nat} {opening name closing : Bit} (fits : depth ≤ limit)
    (opens : opening.kind = .opening) (named : IsName name) (closes : closing.kind = .closing) :
    Token limit depth [opening, name, closing] (.call name.text none false) :=
  .braced fits opens named .none closes

/-! ### Legible trees -/

namespace Node

/-- The nodes of a text: a tidy sequence or, with braces implied, a single token. -/
structure Legible (limit : Nat) (implied trim : Bool) (nodes : List Node) : Prop where
  nonempty : nodes ≠ []
  formed : WellFormedAll limit 0 implied nodes
  spelt : SpeltAll nodes
  normal : Normal ⟨true, trim⟩ none nodes
  sole : implied = true → ∃ node, nodes = [node] ∧ node.isToken = true

instance (limit : Nat) (implied trim : Bool) (nodes : List Node) : Decidable (Legible limit implied trim nodes) :=
  have : Decidable (∃ node, nodes = [node] ∧ node.isToken = true) :=
    match nodes with
    | [node] => decidable_of_iff (node.isToken = true) ⟨fun h => ⟨node, rfl, h⟩, fun ⟨_, he, h⟩ => by cases he; exact h⟩
    | [] | _ :: _ :: _ => .isFalse nofun
  decidable_of_iff (nodes ≠ [] ∧ WellFormedAll limit 0 implied nodes ∧ SpeltAll nodes ∧ Normal ⟨true, trim⟩ none nodes ∧
      (implied = true → ∃ node, nodes = [node] ∧ node.isToken = true))
    ⟨fun ⟨hne, hf, hs, hn, ht⟩ => ⟨hne, hf, hs, hn, ht⟩, fun ⟨hne, hf, hs, hn, ht⟩ => ⟨hne, hf, hs, hn, ht⟩⟩

namespace Legible
variable {limit : Nat} {implied trim : Bool} {nodes : List Node}

/-- The bits of the text as meant are read as these nodes. -/
theorem whole (h : Legible limit implied trim nodes) : ∃ items, merge items = nodes ∧
    ∀ bits : List Bit, bits.map fragment = piecesAll nodes → Whole limit implied bits items := by
  obtain ⟨nonempty, formed, spelt, normal, sole⟩ := h
  cases implied with
  | false =>
    obtain ⟨items, hs, hm⟩ := spells_piecesAll nodes formed spelt
    rw [merge_of_merged (merged_of_normal normal)] at hm
    exact ⟨items, hm, fun bits hb => .mixed (hs bits hb)⟩
  | true =>
    obtain ⟨node, rfl, ht⟩ := sole rfl
    rw [WellFormedAll] at formed
    rw [SpeltAll] at spelt
    obtain ⟨name, input, fs, rfl, -, hp, hcall⟩ := spellsCall_pieces node formed.1 spelt.1 ht
    refine ⟨[.token name input true], rfl, fun bits hb => ?_⟩
    rw [piecesAll, piecesAll, List.append_nil, hp] at hb
    obtain ⟨bit, rest, rfl, named, rfl, argued⟩ := hcall bits hb
    exact .sole named argued

theorem renderAll_ne_empty (h : Legible limit implied trim nodes) : renderAll nodes ≠ "" := by
  rw [Ne, ← String.toList_eq_nil_iff, ← chars_piecesAll]
  intro he
  obtain ⟨items, hm, hw⟩ := h.whole
  have hnil := hw [] (eq_nil_of_chars (fits_piecesAll nodes h.spelt) he).symm
  rw [hnil.eq_nil] at hm
  exact h.nonempty hm.symm

theorem isChain_pieces (h : Legible limit implied trim nodes) (strict : Prop) :
    (piecesAll nodes).IsChain (Follows strict) ↔ (strict → ApartAll nodes) := by
  obtain ⟨nonempty, formed, spelt, normal, sole⟩ := h
  cases implied with
  | false => exact isChain_piecesAll nodes formed spelt (merged_of_normal normal)
  | true =>
    obtain ⟨node, rfl, ht⟩ := sole rfl
    rw [WellFormedAll] at formed
    rw [SpeltAll] at spelt
    rw [piecesAll, piecesAll, List.append_nil, Node.isChain_pieces node formed.1 spelt.1]
    simp [ApartAll]

theorem fragments_renderAll (h : Legible limit implied trim nodes) (ha : ApartAll nodes) :
    fragments (renderAll nodes).toList = piecesAll nodes :=
  fragments_of_isChain h.spelt ((h.isChain_pieces True).mpr fun _ => ha)

theorem whole_scan (h : Legible limit implied trim nodes) (ha : ApartAll nodes) :
    ∃ items, Whole limit implied (scan (renderAll nodes)) items ∧ nodes = tidy ⟨true, trim⟩ items := by
  obtain ⟨items, hm, hw⟩ := h.whole
  refine ⟨items, hw _ ?_, ?_⟩
  · rw [map_fragment_scan h.renderAll_ne_empty, h.fragments_renderAll ha]
  · rw [tidy, hm, settle_of_normal h.normal]

/-- The scan of the text has the signs of the tree only if it finds the tree's own fragments. -/
theorem apart_of_whole_scan (h : Legible limit implied trim nodes) {items : List Node}
    (hw : Whole limit implied (scan (renderAll nodes)) items) (ht : nodes = tidy ⟨true, trim⟩ items) :
    ApartAll nodes := by
  have hfits := fits_piecesAll nodes h.spelt
  have hmeant : nodeSignsAll nodes = (piecesAll nodes).flatMap signs := by
    obtain ⟨others, hm, hothers⟩ := h.whole
    obtain ⟨bits, hb⟩ := exists_map_eq (piecesAll nodes)
    have hbits : ∀ bit ∈ bits, Fits bit.fragment := fun bit hbit => hfits _ (hb ▸ List.mem_map_of_mem hbit)
    rw [← hm, nodeSignsAll_merge, (hothers bits hb).signs_eq hbits, hm, ← hb, List.flatMap_map]
  have hfound : nodeSignsAll nodes = (fragments (renderAll nodes).toList).flatMap signs := by
    rw [ht, nodeSignsAll_tidy, hw.signs_eq (fits_scan h.renderAll_ne_empty), ← ht, ← List.flatMap_map,
      map_fragment_scan h.renderAll_ne_empty]
  have hparts : (piecesAll nodes).IsChain Parts := by
    refine isChain_parts_of_signs hfits ((h.isChain_pieces False).mpr False.elim) ?_
    rw [← hmeant, hfound, chars_piecesAll]
  exact (h.isChain_pieces True).mp (hparts.imp fun _ _ => follows_true_iff_parts.mpr) trivial

end Legible

end Node

/-! ### Reading back -/

section Parse
variable {limit : Nat} {implied trim : Bool} {nodes : List Node} {text : String}

/-- A legible tree whose braces are apart is read back from its text. -/
theorem parse_renderAll (h : Legible limit implied trim nodes) (ha : ApartAll nodes) :
    parse (renderAll nodes) implied trim limit = .ok nodes :=
  parse_eq_ok_iff.mpr (h.whole_scan ha)

theorem parse_renderAll_nested :
    Legible 1 false false [.literal "a", .token "B" (some [.literal "c:d", .token "E\x7d" (some []) false]) false] ∧
      ApartAll [.literal "a", .token "B" (some [.literal "c:d", .token "E\x7d" (some []) false]) false] ∧
      parse (renderAll [.literal "a", .token "B" (some [.literal "c:d", .token "E\x7d" (some []) false]) false])
          false false 1 =
        .ok [.literal "a", .token "B" (some [.literal "c:d", .token "E\x7d" (some []) false]) false] :=
  ⟨by decide, by decide, parse_renderAll (by decide) (by decide)⟩

example : renderAll [.literal "a", .token "B" (some [.literal "c:d", .token "E\x7d" (some []) false]) false] =
    "a{{B: c:d{{E}:}}}\x7d" := by decide

theorem legible_of_whole {items : List Node} (hne : text ≠ "") (hw : Whole limit implied (scan text) items)
    (hnodes : tidy ⟨true, trim⟩ items ≠ []) : Legible limit implied trim (tidy ⟨true, trim⟩ items) := by
  refine ⟨hnodes, hw.wellFormed.tidy _, spelt_tidy _ (hw.spelt (clean_scan hne)), normal_tidy _ _, ?_⟩
  rintro rfl
  generalize scan text = bits at hw
  cases hw with
  | sole named argued => exact ⟨_, rfl, rfl⟩

/-- The empty text is one empty literal, which trimming drops. -/
theorem parse_empty_iff : parse "" implied trim limit = .ok nodes ↔
    implied = false ∧ nodes = tidy ⟨true, trim⟩ [.literal ""] := by
  have hscan : scan "" = [⟨.literal, "", 0⟩] := rfl
  rw [parse_eq_ok_iff, hscan]
  constructor
  · rintro ⟨items, hw, rfl⟩
    cases hw with
    | mixed sequence =>
      obtain ⟨others, rfl, hs⟩ := sequence.of_text_cons ⟨nofun, nofun⟩
      rw [hs.eq_nil]
      exact ⟨rfl, rfl⟩
    | sole named argued => exact absurd named.2 (by decide)
  · rintro ⟨rfl, rfl⟩
    exact ⟨[.literal ""], .mixed (.text ⟨nofun, nofun⟩ .nil), rfl⟩

/-- Nothing is left of a text only where it is blank and trimmed. -/
theorem parse_empty_of_nil (h : parse text implied trim limit = .ok []) : parse "" implied trim limit = .ok [] := by
  obtain ⟨items, hw, ht⟩ := parse_eq_ok_iff.mp h
  rw [parse_empty_iff]
  have hbits := scan_ne_nil text
  generalize scan text = bits at hw hbits
  cases hw with
  | mixed sequence =>
    refine ⟨rfl, ?_⟩
    cases trim with
    | true => rfl
    | false =>
      obtain rfl := tidy_eq_nil ht.symm rfl
      cases sequence
      exact absurd rfl hbits
  | sole named argued => cases ht

/-- What has been read from a text is read back from its own text if and only if its braces are apart. -/
theorem reparse_iff_apart (h : parse text implied trim limit = .ok nodes) :
    parse (renderAll nodes) implied trim limit = .ok nodes ↔ ApartAll nodes := by
  by_cases hnodes : nodes = []
  · subst hnodes
    exact iff_of_true (parse_empty_of_nil h) trivial
  by_cases htext : text = ""
  · subst htext
    obtain ⟨rfl, rfl⟩ := parse_empty_iff.mp h
    cases trim with
    | true => exact absurd rfl hnodes
    | false => exact iff_of_true h (by decide)
  -- Only now is there a scan to speak of: the empty text is a bit that no scan gives.
  obtain ⟨items, hw, rfl⟩ := parse_eq_ok_iff.mp h
  have legible := legible_of_whole htext hw hnodes
  rw [parse_eq_ok_iff]
  constructor
  · rintro ⟨others, hothers, ht⟩
    exact legible.apart_of_whole_scan hothers ht
  · exact legible.whole_scan

/-- White space between a literal and a token is gone from the text that is read back. -/
theorem reparse_spaced :
    parse "x {{A}}" false false defaultLimit = .ok [.literal "x", .token "A" none false] ∧
      parse (renderAll [.literal "x", .token "A" none false]) false false defaultLimit =
        .ok [.literal "x", .token "A" none false] := by
  have hread : parse "x {{A}}" false false defaultLimit = .ok [.literal "x", .token "A" none false] := by
    refine parse_eq_ok_iff.mpr ⟨[.literal "x ", .call "A" none false], .mixed ?_, by decide⟩
    rw [show scan "x {{A}}" = [⟨.literal, "x ", 0⟩, ⟨.opening, "\x7b\x7b", 2⟩, ⟨.literal, "A", 4⟩,
      ⟨.closing, "\x7d\x7d", 5⟩] by decide]
    exact .text ⟨nofun, nofun⟩ (.token (token_alone (Nat.zero_le _) rfl ⟨rfl, by decide⟩ rfl) .nil)
  exact ⟨hread, (reparse_iff_apart hread).mpr (by decide)⟩

/-- Once the white space is gone, the brace of the literal makes a marker with the braces of the token. -/
theorem reparse_joined :
    parse "\x7b {{A}}" false false defaultLimit = .ok [.literal "\x7b", .token "A" none false] ∧
      parse (renderAll [.literal "\x7b", .token "A" none false]) false false defaultLimit ≠
        .ok [.literal "\x7b", .token "A" none false] := by
  have hagain : parse (renderAll [.literal "\x7b", .token "A" none false]) false false defaultLimit =
      .ok [.token "\x7bA" none false] := by
    refine parse_eq_ok_iff.mpr ⟨[.call "\x7bA" none false], .mixed ?_, rfl⟩
    rw [show scan (renderAll [.literal "\x7b", .token "A" none false]) = [⟨.opening, "\x7b\x7b", 0⟩,
      ⟨.literal, "\x7bA", 2⟩, ⟨.closing, "\x7d\x7d", 4⟩] by decide]
    exact .token (token_alone (Nat.zero_le _) rfl ⟨rfl, by decide⟩ rfl) .nil
  constructor
  · refine parse_eq_ok_iff.mpr ⟨[.literal "\x7b ", .call "A" none false], .mixed ?_, by decide⟩
    rw [show scan "\x7b {{A}}" = [⟨.literal, "\x7b ", 0⟩, ⟨.opening, "\x7b\x7b", 2⟩, ⟨.literal, "A", 4⟩,
      ⟨.closing, "\x7d\x7d", 5⟩] by decide]
    exact .text ⟨nofun, nofun⟩ (.token (token_alone (Nat.zero_le _) rfl ⟨rfl, by decide⟩ rfl) .nil)
  · rw [hagain]
    simp

end Parse

end Placeholder
