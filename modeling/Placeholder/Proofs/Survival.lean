import Placeholder.Proofs.Course
import Placeholder.Proofs.Names
import Placeholder.Proofs.Node.Quiet
import Placeholder.Proofs.Padding
import Placeholder.Proofs.RoundTrip

/-! # Tokens survive splitting

If every brace of a text is in a marker of two, its nodes may be taken apart and put together again in any way: what
they are then written as can be read, and calls the names of the nodes. So each segment of the text can be read, and
between them the segments call the names of the text, whether they are trimmed and whether the empty ones are left
out. -/

namespace Placeholder
open Bit Node Grammar

/-! ### What a text calls -/

/-- A text can be read, and these are the names that it calls. -/
def Calls (limit : Nat) (text : String) (names : List String) : Prop :=
  ∃ nodes, parse text false false limit = .ok nodes ∧ namesAll nodes = names

section Calls
variable {limit : Nat} {text : String} {called : List String}

theorem exists_parse_iff (trim : Bool) :
    (∃ nodes, parse text false trim limit = .ok nodes ∧ namesAll nodes = called) ↔
      ∃ items, Whole limit false (scan text) items ∧ namesAll items = called := by
  constructor
  · rintro ⟨nodes, h, rfl⟩
    obtain ⟨items, whole, rfl⟩ := parse_eq_ok_iff.mp h
    exact ⟨items, whole, (namesAll_tidy _ items).symm⟩
  · rintro ⟨items, whole, rfl⟩
    exact ⟨_, parse_eq_ok_iff.mpr ⟨items, whole, rfl⟩, namesAll_tidy _ items⟩

theorem calls_iff : Calls limit text called ↔
    ∃ items, Whole limit false (scan text) items ∧ namesAll items = called :=
  exists_parse_iff false

/-- Whether the ends of a text are trimmed makes no difference to its names. -/
theorem calls_iff_of_trim (trim : Bool) : Calls limit text called ↔
    ∃ nodes, parse text false trim limit = .ok nodes ∧ namesAll nodes = called :=
  calls_iff.trans (exists_parse_iff trim).symm

theorem Calls.trim (h : Calls limit text called) : Calls limit (Text.trim text) called := by
  obtain ⟨nodes, hp, hn⟩ := (calls_iff_of_trim true).mp h
  exact (calls_iff_of_trim true).mpr ⟨nodes, (parse_trim text nodes).mpr hp, hn⟩

theorem calls_empty_iff : Calls limit "" called ↔ called = [] := by
  constructor
  · rintro ⟨nodes, h, rfl⟩
    obtain ⟨-, rfl⟩ := parse_empty_iff.mp h
    rfl
  · rintro rfl
    exact ⟨_, parse_empty_iff.mpr ⟨rfl, rfl⟩, rfl⟩

end Calls

/-! ### Sound nodes -/

/-- What lets a node be read again, wherever it is written. -/
structure Sound (limit : Nat) (node : Node) : Prop where
  formed : WellFormed limit 0 false node
  spelt : Spelt node
  quiet : Quiet (nodeSigns node)

section Sound
variable {limit : Nat} {nodes : List Node}

theorem renderAll_merge (nodes : List Node) : renderAll (merge nodes) = renderAll nodes := by
  rw [← Element.spell_elements, Element.elements_merge, Element.spell_elements]

section Written
variable (h : ∀ node ∈ nodes, Sound limit node)
include h

theorem formed_merge : WellFormedAll limit 0 false (merge nodes) :=
  (wellFormedAll_iff.mpr fun node hn => (h node hn).formed).merge

theorem quiet_of_sound : Quiet (nodeSignsAll nodes) :=
  quiet_all.mpr fun node hn => (h node hn).quiet

theorem spelt_merge : SpeltAll (merge nodes) :=
  spelt_merge_of_quiet (speltAll_iff.mpr fun node hn => (h node hn).spelt) (quiet_of_sound h)

/-- The characters of a literal may be nodes of their own. The scan finds them in one fragment, as if they had been merged
    before they were written. -/
theorem fragments_renderAll : fragments (renderAll nodes).toList = piecesAll (merge nodes) := by
  have apart : ApartAll (merge nodes) := by
    refine apartAll_of_quiet _ ?_
    rw [nodeSignsAll_merge]
    exact quiet_of_sound h
  have hchain : (piecesAll (merge nodes)).IsChain (Follows True) :=
    (isChain_piecesAll _ (formed_merge h) (spelt_merge h) (merged_merge nodes)).mpr fun _ => apart
  rw [← renderAll_merge, fragments_of_isChain (spelt_merge h) hchain]

end Written

/-- Sound nodes are written as a text that can be read and that calls their names. -/
theorem calls_renderAll (h : ∀ node ∈ nodes, Sound limit node) : Calls limit (renderAll nodes) (namesAll nodes) := by
  have hfragments := fragments_renderAll h
  obtain ⟨items, hspells, hm⟩ := spells_piecesAll (merge nodes) (formed_merge h) (spelt_merge h)
  have hnames : namesAll items = namesAll nodes := by
    rw [← namesAll_merge items, hm, merge_of_merged (merged_merge nodes), namesAll_merge]
  by_cases ht : renderAll nodes = ""
  · -- There are no pieces, so there are no nodes to be written, and the empty text has no names either.
    rw [ht] at hfragments
    rw [ht, ← hnames, (hspells [] hfragments).eq_nil]
    exact calls_empty_iff.mpr rfl
  · exact calls_iff.mpr ⟨items, .mixed (hspells _ (by rw [map_fragment_scan ht, hfragments])), hnames⟩

end Sound

/-! ### Sound elements -/

namespace Element
variable {limit : Nat} {nodes : List Node}

/-- An element as a node of its own. -/
def node : Element → Node
  | .char c => .literal (String.singleton c)
  | .whole node => node

theorem spell_eq_renderAll (xs : List Element) : spell xs = renderAll (xs.map node) := by
  induction xs with
  | nil => rfl
  | cons x xs ih =>
    rw [spell_cons, ih, List.map_cons, renderAll]
    cases x <;> rfl

theorem namesAll_map_node (xs : List Element) : namesAll (xs.map node) = namesAll (xs.filterMap node?) := by
  induction xs with
  | nil => rfl
  | cons x xs ih =>
    rw [List.map_cons, namesAll, ih]
    cases x with
    | char c => rfl
    | whole node => rfl

theorem sound_char {s : String} (h : Sound limit (.literal s)) {c : Char} (hc : c ∈ s.toList) :
    Sound limit (.literal (String.singleton c)) := by
  have quiet := h.quiet
  rw [nodeSigns, quiet_lone] at quiet
  have hlone : Quiet (lone (String.singleton c).toList) := by
    rw [quiet_lone]
    simpa using quiet c hc
  refine ⟨by rw [WellFormed]; trivial, ?_, by rwa [nodeSigns]⟩
  rw [Spelt]
  exact ⟨by simp [← String.toList_inj], unpaired_of_quiet hlone⟩

theorem sound_elements (h : ∀ node ∈ nodes, Sound limit node) : ∀ x ∈ elements nodes, Sound limit x.node := by
  induction nodes with
  | nil => exact nofun
  | cons node rest ih =>
    rw [List.forall_mem_cons] at h
    rcases isRigid_or_literal node with hn | ⟨s, rfl⟩
    · rw [elements_rigid hn, List.forall_mem_cons]
      exact ⟨h.1, ih h.2⟩
    · rw [elements, List.forall_mem_append]
      refine ⟨fun x hx => ?_, ih h.2⟩
      obtain ⟨c, hc, rfl⟩ := List.mem_map.mp hx
      exact sound_char h.1 hc

theorem calls_spell {xs : List Element} (h : ∀ x ∈ xs, Sound limit x.node) :
    Calls limit (spell xs) (namesAll (xs.filterMap node?)) := by
  rw [spell_eq_renderAll, ← namesAll_map_node]
  refine calls_renderAll fun node hn => ?_
  obtain ⟨x, hx, rfl⟩ := List.mem_map.mp hn
  exact h x hx

end Element

/-! ### Sound texts -/

section Texts
variable {limit : Nat} {text : String} {nodes : List Node}

/-- Every brace of the bits is in a marker of two. -/
def Bit.Paired (bits : List Bit) : Prop :=
  ∀ bit ∈ bits, bit.kind = .literal → '{' ∉ bit.text.toList ∧ '}' ∉ bit.text.toList

instance : DecidablePred Bit.Paired := fun bits =>
  inferInstanceAs (Decidable (∀ bit ∈ bits, bit.kind = .literal → '{' ∉ bit.text.toList ∧ '}' ∉ bit.text.toList))

theorem quiet_of_paired {bits : List Bit} (hf : ∀ bit ∈ bits, Fits bit.fragment) (hb : Paired bits) :
    Quiet (bits.flatMap fun bit => signs bit.fragment) := by
  refine quiet_flatMap.mpr fun bit hbit => quiet_signs (hf bit hbit) fun hk c hc => ?_
  obtain ⟨hopening, hclosing⟩ := hb bit hbit hk
  have hne : c ≠ '{' ∧ c ≠ '}' := ⟨fun e => hopening (e ▸ hc), fun e => hclosing (e ▸ hc)⟩
  simp [isBrace, hne]

theorem sound_of_whole {items : List Node} (ht : text ≠ "") (hb : Paired (scan text))
    (whole : Whole limit false (scan text) items) : ∀ node ∈ merge items, Sound limit node := by
  have formed := wellFormedAll_iff.mp whole.wellFormed.merge
  have spelt := speltAll_iff.mp (whole.spelt (clean_scan ht))
  have quiet : Quiet (nodeSignsAll (merge items)) := by
    rw [nodeSignsAll_merge, whole.signs_eq (fits_scan ht)]
    exact quiet_of_paired (fits_scan ht) hb
  exact fun node hn => ⟨formed node hn, spelt node hn, quiet_all.mp quiet node hn⟩

end Texts

/-! ### Segments -/

/-- Texts that can be read, and the names that they call one after the other. -/
inductive CallsAll (limit : Nat) : List String → List String → Prop where
  | nil : CallsAll limit [] []
  | cons {text : String} {texts called others : List String} (first : Calls limit text called)
      (more : CallsAll limit texts others) : CallsAll limit (text :: texts) (called ++ others)

section Segments
open Element
variable {limit : Nat} {texts called : List String}

theorem CallsAll.exists_trees (h : CallsAll limit texts called) :
    ∃ trees : List (List Node), (texts.map fun text => parse text false false limit) = trees.map .ok ∧
      trees.flatMap namesAll = called := by
  induction h with
  | nil => exact ⟨[], rfl, rfl⟩
  | cons first more ih =>
    obtain ⟨nodes, hp, rfl⟩ := first
    obtain ⟨trees, ht, rfl⟩ := ih
    exact ⟨nodes :: trees, by rw [List.map_cons, hp, ht, List.map_cons], List.flatMap_cons⟩

/-- Segments that are trimmed call the same names, and those that are left out call none. -/
theorem CallsAll.finish (splitting : Splitting) (h : CallsAll limit texts called) :
    CallsAll limit (splitting.finish texts) called := by
  induction h with
  | nil =>
    rw [Splitting.finish_nil]
    exact .nil
  | @cons text texts called others first more ih =>
    have hcleaned : Calls limit (splitting.cleaned text) called := by
      rw [Splitting.cleaned]
      split
      · exact first.trim
      · exact first
    rw [Splitting.finish_cons]
    split
    · next hdrop =>
      rw [String.isEmpty_iff.mp (Bool.and_eq_true_iff.mp hdrop).2, calls_empty_iff] at hcleaned
      rwa [hcleaned]
    · exact .cons hcleaned ih

theorem callsAll_pieces {pieces : List (List Element)} (h : ∀ piece ∈ pieces, ∀ x ∈ piece, Sound limit x.node) :
    CallsAll limit (pieces.map spell) (namesAll (pieces.flatMap (·.filterMap node?))) := by
  induction pieces with
  | nil => exact .nil
  | cons piece pieces ih =>
    rw [List.forall_mem_cons] at h
    rw [List.map_cons, List.flatMap_cons, namesAll_append]
    exact .cons (calls_spell h.1) (ih h.2)

/-- However sound nodes are cut, no token is lost and none is divided. -/
theorem callsAll_cut {delimiter : String} {nodes : List Node} (hd : delimiter ≠ "")
    (h : ∀ node ∈ nodes, Sound limit node) :
    CallsAll limit ((Text.cut (letters delimiter) (elements nodes)).map spell) (namesAll nodes) := by
  have iscut := Text.isCut_cut (letters_ne_nil hd) (elements nodes)
  have hnames : namesAll ((Text.cut (letters delimiter) (elements nodes)).flatMap (·.filterMap node?)) =
      namesAll nodes := by
    rw [← filterMap_intercalate (filterMap_letters delimiter), iscut.intercalate_eq, filterMap_elements,
      namesAll_filter]
  rw [← hnames]
  exact callsAll_pieces fun piece hp x hx => sound_elements h x ((iscut.isInfix piece hp).subset hx)

theorem callsAll_rawSegments {splitting : Splitting} {text : String} {items : List Node} (hb : Paired (scan text))
    (whole : Whole splitting.limit false (scan text) items) :
    ∃ segments, splitting.rawSegments text = .ok segments ∧ CallsAll splitting.limit segments (namesAll items) := by
  by_cases hcut : splitting.delimiter ≠ "" ∧ splitting.delimiter.toList <:+: text.toList
  · obtain ⟨hd, hc⟩ := hcut
    have ht : text ≠ "" := by
      rintro rfl
      exact hd (String.toList_eq_nil_iff.mp (List.infix_nil.mp hc))
    have hread : parseUnder ⟨false, false⟩ splitting.limit false text = .ok (merge items) :=
      parseUnder_eq_ok_iff.mpr ⟨items, whole, (tidy_eq_merge items).symm⟩
    refine ⟨_, rawSegments_eq hd hc hread, ?_⟩
    rw [← namesAll_merge]
    exact callsAll_cut hd (sound_of_whole ht hb whole)
  · have hwhole : splitting.rawSegments text = .ok [text] := by
      rw [Splitting.rawSegments, Splitting.course_eq_whole_iff.mpr hcut]
    refine ⟨[text], hwhole, ?_⟩
    have hall : CallsAll splitting.limit [text] (namesAll items ++ []) := .cons (calls_iff.mpr ⟨items, whole, rfl⟩) .nil
    rwa [List.append_nil] at hall

/-- A text that can be read and has all its braces in markers is split into segments that can be read under the same
    limit. The names that these call, one segment after the other, are the names that the text calls. -/
theorem names_of_segments {splitting : Splitting} {text : String} {nodes : List Node} (hb : Paired (scan text))
    (h : parse text false false splitting.limit = .ok nodes) :
    ∃ (segments : List String) (trees : List (List Node)), splitting.segments text = .ok segments ∧
      (segments.map fun segment => parse segment false false splitting.limit) = trees.map .ok ∧
      trees.flatMap namesAll = namesAll nodes := by
  obtain ⟨items, whole, rfl⟩ := parse_eq_ok_iff.mp h
  obtain ⟨segments, hraw, hcalls⟩ := callsAll_rawSegments hb whole
  obtain ⟨trees, htrees, hnames⟩ := (hcalls.finish splitting).exists_trees
  refine ⟨splitting.finish segments, trees, ?_, htrees, ?_⟩
  · rw [Splitting.segments, hraw]
    rfl
  · rw [hnames, namesAll_tidy]

/-- A delimiter that stands in tokens as well, where it separates names from inputs. -/
theorem names_of_segments_colon :
    Paired (scan "a: {{B:c:{{D}}}} ::{{E}}") ∧
      parse "a: {{B:c:{{D}}}} ::{{E}}" false false 1 =
        .ok [.literal "a:", .token "B" (some [.literal "c:", .token "D" none false]) false, .literal "::",
          .token "E" none false] ∧
      Splitting.segments ⟨":", true, true, 1⟩ "a: {{B:c:{{D}}}} ::{{E}}" =
        .ok ["a", "{{B: c:{{D}}}}", "{{E}}"] ∧
      ∃ trees : List (List Node),
        (["a", "{{B: c:{{D}}}}", "{{E}}"].map fun segment =>
          parse segment false false 1) = trees.map .ok ∧ trees.flatMap namesAll = ["B", "D", "E"] := by
  have hb : Paired (scan "a: {{B:c:{{D}}}} ::{{E}}") := by decide
  have hread : parse "a: {{B:c:{{D}}}} ::{{E}}" false false 1 =
      .ok [.literal "a:", .token "B" (some [.literal "c:", .token "D" none false]) false, .literal "::",
        .token "E" none false] := by decide +kernel
  have hsplit : Splitting.segments ⟨":", true, true, 1⟩ "a: {{B:c:{{D}}}} ::{{E}}" =
      .ok ["a", "{{B: c:{{D}}}}", "{{E}}"] := by decide +kernel
  obtain ⟨segments, trees, hsegments, htrees, hnames⟩ := @names_of_segments ⟨":", true, true, 1⟩ _ _ hb hread
  cases hsplit.symm.trans hsegments
  exact ⟨hb, hread, hsplit, trees, htrees, hnames⟩

end Segments

end Placeholder
