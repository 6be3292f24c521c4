import Placeholder.Proofs.Accepted
import Placeholder.Proofs.Node.Normal
import Placeholder.Proofs.Text.Cut
import Placeholder.Segments

/-! # Splitting outside of tokens

The nodes of a text are one sequence of characters and of tokens that nothing divides. Splitting the text cuts that
sequence at the characters of the delimiter, whichever way it goes about it: literals that are cut one by one give the
same pieces, because no literal stands beside another and no delimiter reaches over a token. -/

namespace Placeholder
open Bit Node Grammar Text

/-- A character of a literal, or a node that is left whole. -/
inductive Element where
  | char (c : Char)
  | whole (node : Node)
  deriving DecidableEq

namespace Element

/-- The node of an element that is one. -/
def node? : Element → Option Node
  | .char _ => none
  | .whole node => some node

/-- The text of an element. -/
def text : Element → String
  | .char c => String.singleton c
  | .whole node => node.render

/-- The text of some elements in a row. -/
def spell (xs : List Element) : String :=
  String.join (xs.map text)

/-- The characters of a text as elements. -/
def letters (text : String) : List Element :=
  text.toList.map .char

/-- The elements of a sequence of nodes. -/
def elements : List Node → List Element
  | [] => []
  | .literal text :: rest => letters text ++ elements rest
  | node :: rest => .whole node :: elements rest

section Spell
variable {node : Node} {rest : List Node}

theorem elements_rigid (h : node.isRigid = true) : elements (node :: rest) = .whole node :: elements rest := by
  cases node with
  | literal => cases h
  | token | input => rfl

theorem spell_cons (x : Element) (xs : List Element) : spell (x :: xs) = x.text ++ spell xs := by
  simp [spell]

theorem spell_append (xs ys : List Element) : spell (xs ++ ys) = spell xs ++ spell ys := by
  simp [spell]

theorem spell_char (cs : List Char) : spell (cs.map .char) = String.ofList cs := by
  induction cs with
  | nil => rfl
  | cons c cs ih =>
    rw [List.map_cons, spell_cons, ih, ← String.toList_inj]
    simp [text]

theorem spell_letters (s : String) : spell (letters s) = s := by
  rw [letters, spell_char, String.ofList_toList]

theorem spell_elements (nodes : List Node) : spell (elements nodes) = renderAll nodes := by
  induction nodes with
  | nil => rfl
  | cons node rest ih =>
    rcases isRigid_or_literal node with hn | ⟨s, rfl⟩
    · rw [elements_rigid hn, spell_cons, ih, renderAll, text]
    · rw [elements, spell_append, spell_letters, ih, renderAll, Node.render]

theorem spell_intercalate (delimiter : String) (pieces : List (List Element)) :
    String.intercalate delimiter (pieces.map spell) = spell ((letters delimiter).intercalate pieces) := by
  match pieces with
  | [] => simp [spell]
  | [piece] => simp
  | piece :: next :: pieces =>
    have ih := spell_intercalate delimiter (next :: pieces)
    rw [List.map_cons] at ih
    rw [List.map_cons, List.map_cons, String.intercalate_cons_cons, List.intercalate_cons_cons, spell_append,
      spell_append, spell_letters, ih]

theorem filterMap_letters (s : String) : (letters s).filterMap node? = [] := by
  simp [letters, node?]

theorem filterMap_intercalate {sep : List Element} (h : sep.filterMap node? = []) (pieces : List (List Element)) :
    (sep.intercalate pieces).filterMap node? = pieces.flatMap (·.filterMap node?) := by
  match pieces with
  | [] => rfl
  | [piece] => simp
  | piece :: next :: pieces =>
    rw [List.intercalate_cons_cons, List.filterMap_append, List.filterMap_append, h, List.append_nil,
      filterMap_intercalate h (next :: pieces)]
    rfl

/-- The nodes that are left whole are all that are no literals. -/
theorem filterMap_elements (nodes : List Node) : (elements nodes).filterMap node? = nodes.filter isRigid := by
  induction nodes with
  | nil => rfl
  | cons node rest ih =>
    rcases isRigid_or_literal node with hn | ⟨s, rfl⟩
    · rw [elements_rigid hn, List.filter_cons_of_pos hn, ← ih]
      rfl
    · rw [elements, List.filterMap_append, filterMap_letters, ih, filter_isRigid_literal, List.nil_append]

end Spell

/-! ### Cutting node by node -/

section Segments
variable {delimiter : String}

theorem glue_append (front : List String) (last first : String) (more : List String) :
    Splitting.glue (front ++ [last]) (first :: more) = front ++ (last ++ first) :: more := by
  induction front with
  | nil => rfl
  | cons segment front ih =>
    cases front with
    | nil => rfl
    | cons next front =>
      rw [List.cons_append, List.cons_append, Splitting.glue, ← List.cons_append, ih]
      · rfl
      · simp
      · simp

theorem char_injective : Function.Injective Element.char :=
  fun _ _ h => Element.char.inj h

theorem whole_not_mem (node : Node) (s : String) : .whole node ∉ letters s := by
  simp [letters]

theorem pieces_rigid {node : Node} (h : node.isRigid = true) : Splitting.pieces delimiter node = [node.render] := by
  cases node with
  | literal => cases h
  | token | input => rfl

variable (hd : delimiter ≠ "")
include hd

theorem letters_ne_nil : letters delimiter ≠ [] := by
  simpa [letters] using hd

theorem cutText_eq (s : String) : cutText delimiter s = (cut (letters delimiter) (letters s)).map spell := by
  have hchars : delimiter.toList ≠ [] := mt String.toList_eq_nil_iff.mp hd
  rw [letters, letters, cut_map char_injective hchars, List.map_map, cutText]
  exact List.map_congr_left fun cs _ => (spell_char cs).symm

/-- A node that is left whole is no place to cut. -/
theorem cut_whole (node : Node) (xs : List Element) :
    cut (letters delimiter) (.whole node :: xs) = consFirst (.whole node) (cut (letters delimiter) xs) := by
  refine cut_cons fun hp => ?_
  obtain ⟨x, more, hx⟩ := List.exists_cons_of_ne_nil (letters_ne_nil hd)
  rw [hx, List.cons_prefix_cons] at hp
  exact whole_not_mem node delimiter (by rw [hx, hp.1]; exact List.mem_cons_self)

/-- Cutting node by node and joining what meets comes to cutting the whole sequence. -/
theorem nodeSegments_eq {nodes : List Node} (hm : Merged nodes) :
    Splitting.nodeSegments delimiter nodes = (cut (letters delimiter) (elements nodes)).map spell := by
  induction nodes with
  | nil =>
    rw [elements, cut_nil]
    rfl
  | cons node rest ih =>
    have hrest := ih hm.tail
    obtain ⟨first, more, hc⟩ := List.exists_cons_of_ne_nil (cut_ne_nil (letters_ne_nil hd) (elements rest))
    rw [Splitting.nodeSegments, hrest, hc]
    rcases isRigid_or_literal node with hn | ⟨s, rfl⟩
    · rw [elements_rigid hn, cut_whole hd, hc, pieces_rigid hn]
      simp only [consFirst, List.map_cons, Splitting.glue, spell_cons, text]
    · obtain ⟨front, last, hs, happend⟩ := exists_cut_append (letters_ne_nil hd) (letters s)
      -- What comes after a literal is no literal, so that no delimiter goes on there.
      have hjoint : ∀ y ∈ (elements rest).head?, y ∉ letters delimiter := by
        intro y hy
        cases rest with
        | nil => cases hy
        | cons next rest =>
          rcases isRigid_or_literal next with hn | ⟨t, rfl⟩
          · rw [elements_rigid hn] at hy
            cases hy
            exact whole_not_mem next delimiter
          · exact absurd rfl (hm.1 t)
      rw [elements, happend _ _ _ hjoint hc, Splitting.pieces, cutText_eq hd, hs]
      simp [glue_append, spell_append]

end Segments

end Element

/-! ### Texts without tokens -/

/-- Without an opening marker there are only literals. -/
theorem Grammar.Sequence.eq_literals {limit depth : Nat} {bits : List Bit} {items : List Node}
    (h : Sequence limit depth bits items) (hb : ∀ bit ∈ bits, bit.kind ≠ .opening) :
    items = bits.map fun bit => .literal bit.text := by
  induction h using Sequence.flat_induction with
  | nil => rfl
  | text plain rest ih => rw [List.map_cons, ih (List.forall_mem_cons.mp hb).2]
  | token first others =>
    obtain ⟨opening, more, rfl, opens⟩ := first.eq_cons
    exact absurd opens (hb opening (by simp))

theorem merge_literals {bits : List Bit} (hne : bits ≠ []) :
    merge (bits.map fun bit => .literal bit.text) = [.literal (joined bits)] := by
  induction bits with
  | nil => exact absurd rfl hne
  | cons bit bits ih =>
    cases bits with
    | nil => simp [merge]
    | cons next bits =>
      rw [List.map_cons, merge, ih (by simp)]
      simp only [joined_cons]

section Plain
variable {text : String} {limit : Nat} {nodes : List Node}

theorem not_opening_of_plain (h : mayHoldToken text = false) : ∀ bit ∈ scan text, bit.kind ≠ .opening := by
  rw [← Bool.not_eq_true, mayHoldToken_iff] at h
  exact fun bit hb hk => h ⟨bit, hb, hk⟩

theorem nodes_of_plain (hm : mayHoldToken text = false)
    (h : parseUnder ⟨false, false⟩ limit false text = .ok nodes) : nodes = [.literal text] := by
  obtain ⟨items, whole, rfl⟩ := parseUnder_eq_ok_iff.mp h
  cases whole with
  | mixed sequence =>
    have settled : Settled ⟨false, false⟩ none none text := ⟨nofun, nofun, nofun, nofun⟩
    rw [sequence.eq_literals (not_opening_of_plain hm), tidy, merge_literals (scan_ne_nil text), joined_scan]
    exact settle_of_normal ⟨settled, trivial⟩

end Plain

/-! ### Segments -/

section Segments
open Element
variable {text delimiter : String} {limit : Nat} {nodes : List Node}

/-- Nothing is left out of the segments, and nothing is cut off them, unless that is asked for. -/
theorem segments_eq_map (splitting : Splitting) (he : splitting.dropEmpty = false) (ht : splitting.trim = false)
    (text : String) : splitting.segments text = splitting.rawSegments text := by
  have hfinish (segments : List String) : splitting.finish segments = segments := by simp [Splitting.finish, he, ht]
  rw [Splitting.segments]
  cases splitting.rawSegments text with
  | ok segments => exact congrArg Except.ok (hfinish segments)
  | error error => rfl

theorem merged_of_parse (h : parseUnder ⟨false, false⟩ limit false text = .ok nodes) : Merged nodes := by
  obtain ⟨items, -, rfl⟩ := parseUnder_eq_ok_iff.mp h
  exact merged_of_normal (normal_tidy _ items)

theorem rawSegments_eq (hd : delimiter ≠ "") (hc : delimiter.toList <:+: text.toList)
    (h : parseUnder ⟨false, false⟩ limit false text = .ok nodes) :
    Splitting.rawSegments ⟨delimiter, false, false, limit⟩ text =
      .ok ((cut (letters delimiter) (elements nodes)).map spell) := by
  have hempty : delimiter.isEmpty = false := by simpa [← Bool.not_eq_true, String.isEmpty_iff] using hd
  cases hm : mayHoldToken text with
  | false =>
    obtain rfl := nodes_of_plain hm h
    have hletters : elements [.literal text] = letters text := by simp [elements]
    simp [Splitting.rawSegments, Splitting.course, hempty, occurs_iff.mpr hc, hm, cutText_eq hd, hletters]
  | true =>
    simp [Splitting.rawSegments, Splitting.course, hempty, occurs_iff.mpr hc, hm, h, Except.map,
      nodeSegments_eq hd (merged_of_parse h)]

/-- A text that can be read is split at the leftmost occurrences of the delimiter in its characters and tokens. There is
    no other such cut, the segments and the delimiters between them make up the text of the nodes, and every token stands
    whole in one of them. -/
theorem segments_eq_cut (hd : delimiter ≠ "") (hc : delimiter.toList <:+: text.toList)
    (h : parseUnder ⟨false, false⟩ limit false text = .ok nodes) :
    ∃ pieces, (∀ others, IsCut (letters delimiter) (elements nodes) others ↔ others = pieces) ∧
      Splitting.segments ⟨delimiter, false, false, limit⟩ text = .ok (pieces.map spell) ∧
      String.intercalate delimiter (pieces.map spell) = renderAll nodes ∧
      pieces.flatMap (·.filterMap node?) = nodes.filter isRigid := by
  have hletters := letters_ne_nil hd
  have hcut := isCut_cut hletters (elements nodes)
  refine ⟨cut (letters delimiter) (elements nodes), fun others => isCut_iff hletters, ?_, ?_, ?_⟩
  · rw [segments_eq_map _ rfl rfl, rawSegments_eq hd hc h]
  · rw [spell_intercalate, hcut.intercalate_eq, spell_elements]
  · rw [← filterMap_elements, ← filterMap_intercalate (filterMap_letters delimiter), hcut.intercalate_eq]

/-- The delimiter in the token is no place to split. -/
theorem segments_around_token :
    parseUnder ⟨false, false⟩ 2 false "a,{{B:c,d}},e" =
        .ok [.literal "a,", .token "B" (some [.literal "c,d"]) false, .literal ",e"] ∧
      IsCut (letters ",") (elements [.literal "a,", .token "B" (some [.literal "c,d"]) false, .literal ",e"])
        [[.char 'a'], [.whole (.token "B" (some [.literal "c,d"]) false)], [.char 'e']] ∧
      Splitting.segments ⟨",", false, false, 2⟩ "a,{{B:c,d}},e" =
        .ok ["a", "{{B: c,d}}", "e"] := by
  have hread : parseUnder ⟨false, false⟩ 2 false "a,{{B:c,d}},e" =
      .ok [.literal "a,", .token "B" (some [.literal "c,d"]) false, .literal ",e"] := by decide +kernel
  obtain ⟨pieces, hcut, hsegments, -⟩ := segments_eq_cut (by decide : "," ≠ "") (by decide) hread
  have hpieces : cut (letters ",") (elements [.literal "a,", .token "B" (some [.literal "c,d"]) false, .literal ",e"]) =
      [[.char 'a'], [.whole (.token "B" (some [.literal "c,d"]) false)], [.char 'e']] := by decide +kernel
  have hcuts := isCut_cut (letters_ne_nil (by decide : "," ≠ ""))
    (elements [.literal "a,", .token "B" (some [.literal "c,d"]) false, .literal ",e"])
  rw [hpieces] at hcuts
  have hsame := (hcut _).mp hcuts
  exact ⟨hread, hcuts, by rw [hsegments, ← hsame]; decide +kernel⟩

end Segments

end Placeholder
