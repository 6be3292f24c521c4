import Placeholder.Node.Render
import Placeholder.Proofs.Bit.Canonical
import Placeholder.Proofs.Bit.Follows
import Placeholder.Proofs.Node.Formed

/-! # The pieces of a text as meant

The fragments that the text of a tree is put together from: markers where the tree has its braces and separators,
and literals in between. The scan finds these very fragments if no literal runs into a marker, and that is a matter
of the braces in the tree being apart. -/

namespace Placeholder.Node
open Bit

/-! ### Fragments of a tree -/

/-- A content between the markers of a token, unless they are implied. -/
def enclose (implied : Bool) (fs : List Fragment) : List Fragment :=
  if implied then fs else (.opening, Kind.opening.marker) :: (fs ++ [(.closing, Kind.closing.marker)])

/-- A name and the fragments of its input. The blank before named arguments falls to the name. -/
def callPieces (name : String) (inner : List Fragment) : List Fragment :=
  if (chars inner).head? = some '|' then (.literal, name.toList ++ [' ']) :: inner
  else if chars inner = [] then [(.literal, name.toList), (.positional, Kind.positional.marker)]
  else (.literal, name.toList) :: (.positional, Kind.positional.marker) :: consChar ' ' inner

mutual

/-- The fragments of a node. -/
def pieces : Node → List Fragment
  | .literal text => fragments text.toList
  | .token name none implied => enclose implied [(.literal, name.toList)]
  | .token name (some parts) implied => enclose implied (callPieces name (piecesAll parts))
  | .input parts => piecesAll parts
termination_by structural node => node

/-- The fragments of a sequence of nodes. -/
def piecesAll : List Node → List Fragment
  | [] => []
  | node :: rest => pieces node ++ piecesAll rest
termination_by structural nodes => nodes

end

/-! ### They make up the text -/

theorem chars_enclose (implied : Bool) (fs : List Fragment) (content : String) (h : chars fs = content.toList) :
    chars (enclose implied fs) = (brace implied content).toList := by
  cases implied with
  | true => exact h
  | false => simp [enclose, brace, chars_nil, chars_cons, chars_append, h, Kind.marker]

theorem chars_callPieces (name : String) (inner : List Fragment) (input : String) (h : chars inner = input.toList) :
    chars (callPieces name inner) = (name ++ argumentText input).toList := by
  have hempty : chars inner = [] ↔ input.isEmpty = true := by
    rw [h, String.toList_eq_nil_iff, String.isEmpty_iff]
  unfold callPieces argumentText
  rw [h] at hempty ⊢
  split
  · simp [chars_cons, h]
  · split
    · next he => simp [chars_nil, chars_cons, Kind.marker, hempty.mp he]
    · next he => simp [chars_cons, chars_consChar, Kind.marker, h, mt hempty.mpr he]

mutual

theorem chars_pieces : (node : Node) → chars (pieces node) = (render node).toList
  | .literal text => by rw [pieces, render, chars_fragments]
  | .token name none implied => by
    rw [pieces, render]
    exact chars_enclose implied _ name (by simp [chars_nil, chars_cons])
  | .token name (some parts) implied => by
    rw [pieces, render]
    exact chars_enclose implied _ _ (chars_callPieces name _ _ (chars_piecesAll parts))
  | .input parts => by
    rw [pieces, render]
    exact chars_piecesAll parts

theorem chars_piecesAll : (nodes : List Node) → chars (piecesAll nodes) = (renderAll nodes).toList
  | [] => by simp [piecesAll, renderAll, chars_nil]
  | node :: rest => by
    rw [piecesAll, renderAll, chars_append, String.toList_append, chars_pieces node, chars_piecesAll rest]

end

/-! ### They fit -/

theorem fits_consChar_blank {fs : List Fragment} (h : ∀ f ∈ fs, Fits f) : ∀ f ∈ consChar ' ' fs, Fits f := by
  have fresh : ∀ f ∈ (.literal, [' ']) :: fs, Fits f := by
    rw [List.forall_mem_cons]
    exact ⟨⟨by simp, plain_of_blank (by decide)⟩, h⟩
  unfold consChar
  split
  · next cs rest =>
    rw [List.forall_mem_cons] at h ⊢
    exact ⟨⟨by simp, plain_blank_append h.1.2 (by decide : [' '].all Text.isBlankChar = true)⟩, h.2⟩
  · exact fresh

theorem fits_enclose {implied : Bool} {fs : List Fragment} (h : ∀ f ∈ fs, Fits f) : ∀ f ∈ enclose implied fs, Fits f := by
  cases implied with
  | true => exact h
  | false =>
    intro f hf
    simp only [enclose, Bool.false_eq_true, if_false, List.mem_cons, List.mem_append, List.not_mem_nil, or_false] at hf
    rcases hf with rfl | hf | rfl
    · rfl
    · exact h f hf
    · rfl

theorem fits_callPieces {name : String} {inner : List Fragment} (hn : Fits (.literal, name.toList))
    (h : ∀ f ∈ inner, Fits f) : ∀ f ∈ callPieces name inner, Fits f := by
  have separator : Fits (.positional, Kind.positional.marker) := rfl
  unfold callPieces
  split
  · rw [List.forall_mem_cons]
    exact ⟨⟨by simp, plain_append_blank hn.2 (by decide)⟩, h⟩
  · split
    · simpa using ⟨hn, separator⟩
    · rw [List.forall_mem_cons, List.forall_mem_cons]
      exact ⟨hn, separator, fits_consChar_blank h⟩

mutual

theorem fits_pieces : (node : Node) → Spelt node → ∀ f ∈ pieces node, Fits f
  | .literal text, _ => by
    rw [pieces]
    exact (clean_fragments text.toList).fits
  | .token name none implied, h => by
    rw [pieces]
    rw [Spelt] at h
    exact fits_enclose (by simpa using h)
  | .token name (some parts) implied, h => by
    rw [pieces]
    rw [Spelt] at h
    exact fits_enclose (fits_callPieces h.1 (fits_piecesAll parts h.2))
  | .input parts, h => by
    rw [pieces]
    rw [Spelt] at h
    exact fits_piecesAll parts h

theorem fits_piecesAll : (nodes : List Node) → SpeltAll nodes → ∀ f ∈ piecesAll nodes, Fits f
  | [], _ => by simp [piecesAll]
  | node :: rest, h => by
    rw [SpeltAll] at h
    rw [piecesAll, List.forall_mem_append]
    exact ⟨fits_pieces node h.1, fits_piecesAll rest h.2⟩

end

/-! ### How they follow each other -/

section Follows
variable {strict : Prop}

/-- What a name brings along is separated from the input and does not change how that goes on. -/
theorem isChain_callPieces {name : String} {inner : List Fragment} (h : ∀ f ∈ inner, Fits f) (rest : List Fragment) :
    (callPieces name inner ++ rest).IsChain (Follows strict) ↔ (inner ++ rest).IsChain (Follows strict) := by
  have separated (cs : List Char) (more : List Fragment) :
      ((.literal, cs) :: (.positional, Kind.positional.marker) :: more).IsChain (Follows strict) ↔
        more.IsChain (Follows strict) := by
    rw [List.isChain_cons_cons, List.isChain_cons, and_iff_right, and_iff_right]
    · exact fun b _ => follows_of_marker nofun
    · exact fun _ => ⟨nofun, fun _ => ⟨nofun, nofun⟩⟩
  unfold callPieces
  split
  · next hh =>
    obtain ⟨others, rfl⟩ := eq_named_of_head h hh
    rw [List.cons_append, List.cons_append, List.isChain_cons_cons, and_iff_right]
    exact fun _ => ⟨nofun, fun _ => ⟨nofun, nofun⟩⟩
  · split
    · next he =>
      obtain rfl := eq_nil_of_chars h he
      exact separated _ rest
    · next he =>
      have hne : inner ≠ [] := by
        rintro rfl
        exact he rfl
      have happend : consChar ' ' inner ++ rest = consChar ' ' (inner ++ rest) := by
        cases inner with
        | nil => exact absurd rfl hne
        | cons f fs =>
          obtain ⟨kind, cs⟩ := f
          cases kind <;> rfl
      have hhead : ∀ f ∈ (inner ++ rest).head?, Fits f := by
        rw [List.head?_append_of_ne_nil _ hne]
        exact fun f hf => h f (List.mem_of_mem_head? hf)
      rw [List.cons_append, List.cons_append, separated, happend, isChain_consChar_blank hhead]

/-- The markers of a token: only the closing one comes after something that could run into it. -/
theorem isChain_enclose {name : String} {implied : Bool} {inner : List Fragment} (h : ∀ f ∈ inner, Fits f) :
    (enclose implied (callPieces name inner)).IsChain (Follows strict) ↔ inner.IsChain (Follows strict) ∧
      (implied = false → ∀ f ∈ inner.getLast?, Follows strict f (.closing, Kind.closing.marker)) := by
  cases implied with
  | true =>
    have hcall : (callPieces name inner).IsChain (Follows strict) ↔ inner.IsChain (Follows strict) := by
      simpa using isChain_callPieces h []
    simp [enclose, hcall]
  | false =>
    have hcall : (callPieces name inner ++ [(Kind.closing, Kind.closing.marker)]).IsChain (Follows strict) ↔
        (inner ++ [(Kind.closing, Kind.closing.marker)]).IsChain (Follows strict) := isChain_callPieces h _
    have hopening : ∀ f ∈ (callPieces name inner ++ [(Kind.closing, Kind.closing.marker)]).head?,
        Follows strict (.opening, Kind.opening.marker) f := fun f _ => follows_of_marker nofun
    rw [enclose, if_neg Bool.false_ne_true, List.isChain_cons, hcall, List.isChain_append, and_iff_right hopening]
    simp

end Follows

/-! ### How the braces of a tree are apart -/

section Apart
variable {strict : Prop} {limit depth : Nat} {node : Node} {rest : List Node}

theorem pieces_token (name : String) (input : Option (List Node)) (implied : Bool) :
    ∃ fs, pieces (.token name input implied) = enclose implied fs := by
  cases input with
  | none => exact ⟨_, by rw [pieces]⟩
  | some parts => exact ⟨_, by rw [pieces]⟩

/-- Nodes of an input or outside of any token: text, or a token that shows its markers. -/
theorem WellFormed.shape (h : WellFormed limit depth false node) :
    (∃ s, node = .literal s) ∨ ∃ name input fs, node = .token name input false ∧
      pieces node = (.opening, Kind.opening.marker) :: (fs ++ [(.closing, Kind.closing.marker)]) := by
  cases node with
  | literal s => exact Or.inl ⟨s, rfl⟩
  | token name input own =>
    obtain rfl := h.proper.braces
    obtain ⟨fs, hp⟩ := pieces_token name input false
    exact Or.inr ⟨name, input, fs, rfl, hp⟩
  | input parts =>
    rw [WellFormed] at h
    exact h.elim

theorem pieces_ne_nil (hw : WellFormed limit depth false node) (hs : Spelt node) : pieces node ≠ [] := by
  rcases hw.shape with ⟨s, rfl⟩ | ⟨name, input, fs, rfl, hp⟩
  · rw [Spelt] at hs
    rw [pieces]
    intro he
    have hc := chars_fragments s.toList
    rw [he, chars_nil] at hc
    exact hs.1 (String.toList_eq_nil_iff.mp hc.symm)
  · rw [hp]
    exact List.cons_ne_nil _ _

/-- The end of a sequence before a closing marker. -/
theorem follows_last_piece {nodes : List Node} (hw : WellFormedAll limit depth false nodes) (hs : SpeltAll nodes) :
    (∀ f ∈ (piecesAll nodes).getLast?, Follows strict f (.closing, Kind.closing.marker)) ↔
      (strict → ∀ node ∈ nodes.getLast?, ¬node.endsIn '}') := by
  induction nodes with
  | nil => simp [piecesAll]
  | cons node rest ih =>
    rw [WellFormedAll] at hw
    rw [SpeltAll] at hs
    cases rest with
    | nil =>
      rw [piecesAll, piecesAll, List.append_nil]
      rcases hw.1.shape with ⟨s, rfl⟩ | ⟨name, input, fs, rfl, hp⟩
      · rw [pieces, follows_last_fragment hs.1.2 (Or.inr ⟨rfl, rfl⟩)]
        simp [endsIn]
      · rw [hp, ← List.cons_append, List.getLast?_concat]
        simp [endsIn, Follows]
    | cons next more =>
      rw [WellFormedAll] at hw
      rw [SpeltAll] at hs
      have hne : piecesAll (next :: more) ≠ [] := by
        rw [piecesAll]
        exact List.append_ne_nil_of_left_ne_nil (pieces_ne_nil hw.2.1 hs.2.1) _
      rw [piecesAll, List.getLast?_append_of_ne_nil _ hne, ih hw.2 hs.2, List.getLast?_cons_cons]

/-- A node and what comes after it: only a literal before a token can run into the token's opening marker. -/
theorem follows_first_piece (hw : WellFormedAll limit depth false (node :: rest)) (hs : Spelt node)
    (hm : Merged (node :: rest)) :
    (∀ f ∈ (pieces node).getLast?, ∀ g ∈ (piecesAll rest).head?, Follows strict f g) ↔
      (strict → node.endsIn '{' → ∀ next ∈ rest.head?, next.isToken = false) := by
  rw [WellFormedAll] at hw
  rcases hw.1.shape with ⟨s, rfl⟩ | ⟨name, input, fs, rfl, hp⟩
  · cases rest with
    | nil => simp [piecesAll]
    | cons next more =>
      rw [WellFormedAll] at hw
      rcases hw.2.1.shape with ⟨t, rfl⟩ | ⟨name, input, fs, rfl, hp⟩
      · exact absurd rfl (hm.1 t)
      · have hhead : (piecesAll (.token name input false :: more)).head? = some (.opening, Kind.opening.marker) := by
          rw [piecesAll, hp]
          rfl
        have hlast : (∀ f ∈ (fragments s.toList).getLast?, Follows strict f (.opening, Kind.opening.marker)) ↔
            (strict → s.toList.getLast? ≠ some '{') := follows_last_fragment hs.2 (Or.inl ⟨rfl, rfl⟩)
        simpa [hhead, pieces, endsIn, isToken] using hlast
  · rw [hp, ← List.cons_append, List.getLast?_concat]
    simp [endsIn, Follows]

mutual

/-- The fragments of a node follow each other if its braces are apart. -/
theorem isChain_pieces {limit depth : Nat} {implied : Bool} : (node : Node) → WellFormed limit depth implied node →
    Spelt node → ((pieces node).IsChain (Follows strict) ↔ (strict → Apart node))
  | .literal text, _, _ => by
    rw [pieces, Apart]
    exact iff_of_true (isChain_fragments text.toList) fun _ => trivial
  | .token name none own, _, _ => by
    rw [pieces, Apart]
    cases own <;> simp [enclose, Follows]
  | .token name (some parts) own, hw, hs => by
    rw [WellFormed] at hw
    rw [Spelt] at hs
    have hinner : (piecesAll parts).IsChain (Follows strict) ↔ (strict → ApartAll parts) :=
      isChain_piecesAll parts hw.2.2 hs.2 (merged_of_normal hw.2.1)
    rw [pieces, Apart, isChain_enclose (fits_piecesAll parts hs.2), hinner, follows_last_piece hw.2.2 hs.2, imp_and,
      imp.swap]
  | .input parts, hw, _ => by
    rw [WellFormed] at hw
    exact hw.elim

theorem isChain_piecesAll {limit depth : Nat} : (nodes : List Node) → WellFormedAll limit depth false nodes →
    SpeltAll nodes → Merged nodes → ((piecesAll nodes).IsChain (Follows strict) ↔ (strict → ApartAll nodes))
  | [], _, _, _ => by simp [piecesAll, ApartAll]
  | node :: rest, hw, hs, hm => by
    rw [piecesAll, ApartAll, List.isChain_append, follows_first_piece hw hs.1 hm]
    rw [WellFormedAll] at hw
    rw [SpeltAll] at hs
    rw [isChain_pieces node hw.1 hs.1, isChain_piecesAll rest hw.2 hs.2 hm.tail, imp_and, imp_and]
    exact and_congr_right fun _ => and_comm

end

/-- Pieces that do not run into each other are what the scan finds. -/
theorem fragments_of_isChain {nodes : List Node} (hs : SpeltAll nodes) (h : (piecesAll nodes).IsChain (Follows True)) :
    fragments (renderAll nodes).toList = piecesAll nodes := by
  have hparts : (piecesAll nodes).IsChain Parts := h.imp fun _ _ => follows_true_iff_parts.mp
  rw [← chars_piecesAll, fragments_of_clean ⟨fits_piecesAll nodes hs, hparts⟩]

end Apart

end Placeholder.Node
