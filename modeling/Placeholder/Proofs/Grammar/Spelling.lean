import Placeholder.Proofs.Bit.Canonical
import Placeholder.Proofs.Grammar.Derivation
import Placeholder.Proofs.Node.Blank
import Placeholder.Proofs.Node.Pieces

/-! # Trees are spelled by their pieces

The grammar derives every tree that is well formed and spelt from the fragments of its text as meant, wherever these
stand. What the text adds to the tree, a blank before an input and a literal cut at every separator, is undone by
trimming the name, by merging and by trimming the ends of the input. -/

namespace Placeholder.Grammar
open Bit Node

/-- All bits with these fragments are a sequence of these nodes. -/
def Spells (limit depth : Nat) (fs : List Fragment) (items : List Node) : Prop :=
  ∀ bits : List Bit, bits.map fragment = fs → Sequence limit depth bits items

/-- All bits with these fragments are a name and an input. -/
def SpellsCall (limit depth : Nat) (fs : List Fragment) (name : String) (input : Option (List Node)) : Prop :=
  ∀ bits : List Bit, bits.map fragment = fs → ∃ bit rest, bits = bit :: rest ∧ IsName bit ∧ Text.trim bit.text = name ∧
    Input limit depth rest input

/-! ### Bits with given fragments -/

section Fragments
variable {bits : List Bit} {f : Fragment} {fs gs : List Fragment}

theorem eq_cons_of_map (h : bits.map fragment = f :: fs) :
    ∃ bit rest, bits = bit :: rest ∧ bit.kind = f.1 ∧ bit.text = String.ofList f.2 ∧ rest.map fragment = fs := by
  obtain ⟨bit, rest, rfl, rfl, hrest⟩ := List.map_eq_cons_iff.mp h
  exact ⟨bit, rest, rfl, rfl, String.ofList_toList.symm, hrest⟩

theorem eq_append_of_map (h : bits.map fragment = fs ++ gs) :
    ∃ front back, bits = front ++ back ∧ front.map fragment = fs ∧ back.map fragment = gs :=
  List.map_eq_append_iff.mp h

theorem exists_map_eq (fs : List Fragment) : ∃ bits : List Bit, bits.map fragment = fs :=
  ⟨place 0 fs, map_fragment_place 0 fs⟩

end Fragments

/-! ### Rules -/

section Rules
variable {limit depth : Nat} {f : Fragment} {fs gs inner : List Fragment} {items nodes : List Node} {name : String}
  {input : Option (List Node)}

theorem Spells.nil : Spells limit depth [] [] := by
  intro bits hb
  rw [List.map_eq_nil_iff.mp hb]
  exact .nil

theorem Spells.text (hf : Textual f) (h : Spells limit depth fs items) :
    Spells limit depth (f :: fs) (.literal (String.ofList f.2) :: items) := by
  intro bits hb
  obtain ⟨bit, rest, rfl, hk, ht, hrest⟩ := eq_cons_of_map hb
  have plain : IsText bit := by rwa [Textual, ← hk] at hf
  rw [← ht]
  exact .text plain (h rest hrest)

theorem Spells.of_text (hf : Textual f) (h : Spells limit depth (f :: fs) items) :
    ∃ others, items = .literal (String.ofList f.2) :: others ∧ Spells limit depth fs others := by
  obtain ⟨bits, hb⟩ := exists_map_eq (f :: fs)
  have hs := h bits hb
  obtain ⟨bit, rest, rfl, hk, ht, hrest⟩ := eq_cons_of_map hb
  have plain : IsText bit := by rwa [Textual, ← hk] at hf
  obtain ⟨others, rfl, -⟩ := hs.of_text_cons plain
  refine ⟨others, by rw [ht], fun bits' hb' => ?_⟩
  -- Any other bits for the rest go with the same first bit.
  have hs' := h (bit :: bits') (by rw [List.map_cons, hb', ← hb, List.map_cons, hrest])
  obtain ⟨others', he, hrest'⟩ := hs'.of_text_cons plain
  cases he
  exact hrest'

theorem Spells.token (fits : depth ≤ limit) (hc : SpellsCall limit depth fs name input)
    (h : Spells limit depth gs items) :
    Spells limit depth (enclose false fs ++ gs) (.token name input false :: items) := by
  intro bits hb
  obtain ⟨front, back, rfl, hfront, hback⟩ := eq_append_of_map hb
  obtain ⟨opening, more, rfl, opens, -, hmore⟩ := eq_cons_of_map hfront
  obtain ⟨call, ending, rfl, hcall, hending⟩ := eq_append_of_map hmore
  obtain ⟨closing, none, rfl, closes, -, hnone⟩ := eq_cons_of_map hending
  obtain rfl := List.map_eq_nil_iff.mp hnone
  obtain ⟨bit, rest, rfl, named, rfl, argued⟩ := hc call hcall
  exact .token (.braced fits opens named argued closes) (h back hback)

/-- A run of text, which becomes one literal once it is merged. -/
theorem Spells.run (hg : ∀ g ∈ gs, Textual g) (hne : gs ≠ []) (h : Spells limit depth fs items) :
    ∃ others, Spells limit depth (gs ++ fs) others ∧
      merge others = merge (.literal (String.ofList (chars gs)) :: items) := by
  induction gs with
  | nil => exact absurd rfl hne
  | cons g gs ih =>
    rw [List.forall_mem_cons] at hg
    by_cases hgs : gs = []
    · subst hgs
      refine ⟨_, h.text hg.1, ?_⟩
      rw [chars_cons, chars_nil, List.append_nil]
    · obtain ⟨others, hs, hm⟩ := ih hg.2 hgs
      refine ⟨_, hs.text hg.1, ?_⟩
      rw [merge_cons_congr _ hm, merge_literal_literal, chars_cons, String.ofList_append]

theorem Spells.blank (h : Spells limit depth fs items) :
    ∃ others, Spells limit depth (consChar ' ' fs) others ∧
      ∀ rule : Rule, rule.atEnds = true → tidy rule others = tidy rule items := by
  have hblank : Text.isBlank " " = true := by decide
  have plain (cs : List Char) : Textual (.literal, cs) := ⟨nofun, nofun⟩
  by_cases hl : ∀ f ∈ fs.head?, f.1 ≠ .literal
  · rw [consChar_of_ne hl]
    exact ⟨_, h.text (plain _), fun rule ha => tidy_blank_cons ha hblank items⟩
  · cases fs with
    | nil => exact absurd nofun hl
    | cons f fs =>
      obtain ⟨kind, cs⟩ := f
      obtain rfl : kind = .literal := by simpa using hl
      obtain ⟨others, rfl, hs⟩ := h.of_text (plain cs)
      have happend : String.ofList (' ' :: cs) = " " ++ String.ofList cs := by
        rw [← String.toList_inj]
        simp
      refine ⟨_, hs.text (plain _), fun rule ha => ?_⟩
      rw [happend]
      exact tidy_blank_append [] hblank (Or.inl ha) (Or.inl ha) ha

/-! ### Calls -/

theorem SpellsCall.alone (named : Text.isBlank name = false) (trimmed : Text.trim name = name) :
    SpellsCall limit depth [(.literal, name.toList)] name none := by
  intro bits hb
  obtain ⟨bit, rest, rfl, hk, ht, hrest⟩ := eq_cons_of_map hb
  rw [String.ofList_toList] at ht
  obtain rfl := List.map_eq_nil_iff.mp hrest
  rw [← ht] at named trimmed ⊢
  exact ⟨bit, [], rfl, ⟨hk, named⟩, trimmed, .none⟩

theorem SpellsCall.positional (named : Text.isBlank name = false) (trimmed : Text.trim name = name)
    (h : Spells limit (depth + 1) fs items) : SpellsCall limit depth
      ((.literal, name.toList) :: (.positional, Kind.positional.marker) :: fs) name (some (tidy ⟨true, true⟩ items)) := by
  intro bits hb
  obtain ⟨bit, more, rfl, hk, ht, hmore⟩ := eq_cons_of_map hb
  obtain ⟨separator, rest, rfl, hs, -, hrest⟩ := eq_cons_of_map hmore
  rw [String.ofList_toList] at ht
  rw [← ht] at named trimmed ⊢
  exact ⟨bit, _, rfl, ⟨hk, named⟩, trimmed, .positional hs (h rest hrest)⟩

/-- The blank that the text puts before named arguments is trimmed off the name. -/
theorem SpellsCall.named (hne : name ≠ "") (trimmed : Text.trim name = name)
    (h : Spells limit (depth + 1) ((.named, Kind.named.marker) :: fs) items) : SpellsCall limit depth
      ((.literal, name.toList ++ [' ']) :: (.named, Kind.named.marker) :: fs) name (some (tidy ⟨true, true⟩ items)) := by
  have happend : String.ofList (name.toList ++ [' ']) = name ++ " " := by
    rw [← String.toList_inj]
    simp
  have named : Text.isBlank (name ++ " ") = false := by
    rw [Text.isBlank_append, Text.isBlank_of_trim_eq trimmed hne, Bool.false_and]
  intro bits hb
  obtain ⟨bit, more, rfl, hk, ht, hmore⟩ := eq_cons_of_map hb
  obtain ⟨separator, rest, rfl, hs, hbar, hrest⟩ := eq_cons_of_map hmore
  rw [happend] at ht
  rw [← ht] at named
  have plain : Textual (.named, Kind.named.marker) := ⟨nofun, nofun⟩
  obtain ⟨others, rfl, hinner⟩ := h.of_text plain
  refine ⟨bit, _, rfl, ⟨hk, named⟩, ?_, ?_⟩
  · rw [ht]
    exact (Text.trim_append_blank (by decide) _).trans trimmed
  · rw [← hbar]
    exact .named hs (hinner rest hrest)

/-- The text of a token separates its name from its input so that both are found again. -/
theorem SpellsCall.of_inner (hne : name ≠ "") (trimmed : Text.trim name = name) (hf : ∀ f ∈ inner, Fits f)
    (h : Spells limit (depth + 1) inner items) :
    SpellsCall limit depth (callPieces name inner) name (some (tidy ⟨true, true⟩ items)) := by
  have named := Text.isBlank_of_trim_eq trimmed hne
  unfold callPieces
  split
  · next hh =>
    obtain ⟨others, rfl⟩ := eq_named_of_head hf hh
    exact .named hne trimmed h
  · split
    · next he =>
      obtain rfl := eq_nil_of_chars hf he
      exact .positional named trimmed h
    · obtain ⟨others, hs, ht⟩ := h.blank
      rw [← ht _ rfl]
      exact .positional named trimmed hs

end Rules

/-! ### Trees -/

section Trees
variable {limit : Nat}

mutual

/-- The fragments of a token, its markers aside, are its name and its input. -/
theorem spellsCall_pieces {depth : Nat} {implied : Bool} : (node : Node) → WellFormed limit depth implied node →
    Spelt node → node.isToken = true → ∃ name input fs, node = .token name input implied ∧ depth ≤ limit ∧
      pieces node = enclose implied fs ∧ SpellsCall limit depth fs name input
  | .token name none own, hw, _, _ => by
    rw [WellFormed] at hw
    obtain rfl := hw.braces
    have named := Text.isBlank_of_trim_eq hw.trimmed hw.named
    exact ⟨name, none, _, rfl, hw.within, by rw [pieces], .alone named hw.trimmed⟩
  | .token name (some parts) own, hw, hs, _ => by
    rw [WellFormed] at hw
    rw [Spelt] at hs
    obtain ⟨proper, hnormal, hparts⟩ := hw
    obtain rfl := proper.braces
    obtain ⟨items, hitems, hm⟩ := spells_piecesAll parts hparts hs.2
    have htidy : tidy ⟨true, true⟩ items = parts := by
      rw [tidy, hm, ← tidy, tidy_of_normal hnormal]
    have hcall := SpellsCall.of_inner proper.named proper.trimmed (fits_piecesAll parts hs.2) hitems
    rw [htidy] at hcall
    exact ⟨name, some parts, _, rfl, proper.within, by rw [pieces], hcall⟩

/-- The fragments of a sequence spell it, up to merging. -/
theorem spells_piecesAll {depth : Nat} : (nodes : List Node) → WellFormedAll limit depth false nodes →
    SpeltAll nodes → ∃ items, Spells limit depth (piecesAll nodes) items ∧ merge items = merge nodes
  | [], _, _ => ⟨[], by rw [piecesAll]; exact .nil, rfl⟩
  | .literal text :: rest, hw, hs => by
    rw [WellFormedAll] at hw
    rw [SpeltAll] at hs
    obtain ⟨items, hitems, hm⟩ := spells_piecesAll rest hw.2 hs.2
    have hne := pieces_ne_nil hw.1 hs.1
    obtain ⟨others, hothers, hmerge⟩ := hitems.run (textual_of_unpaired hs.1.2) (by rwa [pieces] at hne)
    rw [chars_fragments, String.ofList_toList, merge_cons_congr _ hm] at hmerge
    exact ⟨others, by rwa [piecesAll, pieces], hmerge⟩
  | .token name args own :: rest, hw, hs => by
    rw [WellFormedAll] at hw
    rw [SpeltAll] at hs
    obtain ⟨items, hitems, hm⟩ := spells_piecesAll rest hw.2 hs.2
    obtain ⟨name, input, fs, he, fits, hp, hcall⟩ := spellsCall_pieces (.token name args own) hw.1 hs.1 rfl
    rw [piecesAll, hp, he]
    exact ⟨_, .token fits hcall hitems, merge_cons_congr _ hm⟩
  | .input parts :: rest, hw, _ => by
    rw [WellFormedAll, WellFormed] at hw
    exact hw.1.elim

end

end Trees

end Placeholder.Grammar
