import Placeholder.Proofs.Bit.Padding
import Placeholder.Proofs.Stage.Exchange
import Placeholder.Proofs.Text.Size

/-! # White space next to a marker

White space that is put before or after a marker of two braces, or at an end that is trimmed, changes neither whether
a text is accepted nor its nodes. A name is trimmed, a literal is trimmed next to a token and at the ends of an input,
and one that nothing is left of is dropped, so that each place for the white space has a rule that takes it off. -/

namespace Placeholder
open Bit Node Grammar

/-- A marker of two braces. -/
def Bit.IsBrace (bit : Bit) : Prop :=
  bit.kind = .opening ∨ bit.kind = .closing

namespace Frame

/-- A marker comes last, or nothing comes before a text that is trimmed. -/
def TouchesBefore (implied trim : Bool) (front : List Bit) : Prop :=
  (∃ bit ∈ front.getLast?, bit.IsBrace) ∨ (trim = true ∨ implied = true) ∧ front = []

/-- A marker comes next, or nothing comes after a text that is trimmed. -/
def TouchesAfter (implied trim : Bool) (back : List Bit) : Prop :=
  (∃ bit ∈ back.head?, bit.IsBrace) ∨ (trim = true ∨ implied = true) ∧ back = []

section Top
variable {limit : Nat} {implied trim : Bool} {front : List Bit} {bit : Bit} {name : String} {parts : List Node}
  {rest : List Frame}

theorem parts_of_start (h : run limit implied (start implied) [] = some (.filled name parts :: rest)) :
    implied = false ∧ parts = [] ∧ rest = [] := by
  cases implied with
  | false =>
    cases h
    exact ⟨rfl, rfl, rfl⟩
  | true => cases h

/-- The last node of the uppermost frame is what the last bit has left there. -/
theorem last_of_step {frames : List Frame} (h : step limit implied frames bit = some (.filled name parts :: rest)) :
    bit.kind = .closing ∧ (∃ node, parts.getLast? = some node ∧ node.isToken = true) ∨
      IsText bit ∧ ∀ node, parts.getLast? = some node → node = .literal bit.text := by
  rcases step_eq_some h with ⟨-, _, _, _, -, -, he⟩ | ⟨hk, _, node, _, _, _, -, hn, he⟩ | ⟨-, _, -, he⟩ |
    ⟨hk, _, _, -, he⟩ | ⟨hk, _, _, -, he⟩ | ⟨plain, _, _, _, -, he⟩
  · cases he
  · cases he
    exact Or.inl ⟨hk, node, by simp, isToken_of_node hn⟩
  · cases he
  · cases he
    exact Or.inr ⟨isText_of_kind hk (by simp) (by simp), by simp⟩
  · cases he
    exact Or.inr ⟨isText_of_kind hk (by simp) (by simp), by simp⟩
  · cases he
    exact Or.inr ⟨plain, by simp⟩

theorem step_of_run {frames : List Frame} (h : run limit implied (start implied) front = some frames)
    (hb : front.getLast? = some bit) : ∃ mid, step limit implied mid bit = some frames := by
  obtain ⟨front, rfl⟩ := List.getLast?_eq_some_iff.mp hb
  rw [run_append] at h
  obtain ⟨mid, -, hr⟩ := Option.bind_eq_some_iff.mp h
  rw [run_cons] at hr
  obtain ⟨last, hs, hl⟩ := Option.bind_eq_some_iff.mp hr
  cases hl
  exact ⟨mid, hs⟩

variable (hrun : run limit implied (start implied) front = some (.filled name parts :: rest))
include hrun

/-- Next to what touches it, a literal is trimmed. -/
theorem cutsAt_of_touches (ht : TouchesBefore implied trim front) :
    (rule implied trim rest).cutsAt parts.getLast? = true := by
  rcases ht with ⟨bit, hb, hk⟩ | ⟨htrim, rfl⟩
  · obtain ⟨mid, hs⟩ := step_of_run hrun hb
    rcases last_of_step hs with ⟨-, node, hn, htoken⟩ | ⟨⟨ho, hc⟩, -⟩
    · simp [hn, Rule.cutsAt, rule, htoken]
    · exact absurd hk (by simp [IsBrace, ho, hc])
  · obtain ⟨-, rfl, rfl⟩ := parts_of_start hrun
    rcases htrim with rfl | rfl <;> simp [Rule.cutsAt, rule]

theorem mayDrop_last (hbits : ∀ bit ∈ front, bit.text ≠ "") {s : String}
    (hs : parts.getLast? = some (.literal s)) : (rule implied trim rest).MayDrop s := by
  cases hb : front.getLast? with
  | none =>
    rw [List.getLast?_eq_none_iff.mp hb] at hrun
    obtain ⟨-, rfl, -⟩ := parts_of_start hrun
    cases hs
  | some bit =>
    obtain ⟨mid, hstep⟩ := step_of_run hrun hb
    rcases last_of_step hstep with ⟨-, node, hn, htoken⟩ | ⟨-, hlast⟩
    · rw [hs] at hn
      cases hn
      cases htoken
    · cases hlast _ hs
      exact Or.inr (hbits bit (List.mem_of_getLast? hb))

end Top

theorem literal_of_run {limit : Nat} {implied : Bool} {front : List Bit} {name : String} {rest : List Frame}
    (h : run limit implied (start implied) front = some (.named name :: rest)) :
    ∃ bit ∈ front.getLast?, bit.kind = .literal := by
  have hrun := stage_run h
  rw [stage_start] at hrun
  exact Stage.literal_of_run hrun rfl

theorem run_opened {limit : Nat} {implied trim : Bool} {back : List Bit} {rest : List Frame}
    (h : ∀ bit ∈ back.head?, bit.kind ≠ .literal) :
    (run limit implied (.opened :: rest) back).bind (outcome implied trim) = none := by
  cases back with
  | nil =>
    rw [run_nil, Option.bind_some]
    cases rest with
    | nil => cases implied <;> rfl
    | cons => rfl
  | cons bit back =>
    have hk : bit.kind ≠ .literal := h bit rfl
    simp [run_cons, step, hk]

section Literal
variable {limit : Nat} {implied trim : Bool} {frames : List Frame} {bit grown : Bit} {back : List Bit}

theorem read_append (front back : List Bit) : read limit implied trim (front ++ back) =
    (run limit implied (start implied) front).bind fun frames =>
      (run limit implied frames back).bind (outcome implied trim) := by
  simp [read, run_append, Option.bind_assoc]

/-- Two literals that are the same as a name differ only among the nodes of a frame. -/
theorem run_literal_congr (hb : bit.kind = .literal) (hg : grown.kind = .literal)
    (hblank : Text.isBlank grown.text = Text.isBlank bit.text) (htrim : Text.trim grown.text = Text.trim bit.text)
    (hfilled : ∀ name parts rest, frames = .filled name parts :: rest →
      (run limit implied (.filled name (parts ++ [.literal grown.text]) :: rest) back).bind (outcome implied trim) =
        (run limit implied (.filled name (parts ++ [.literal bit.text]) :: rest) back).bind (outcome implied trim)) :
    (run limit implied frames (grown :: back)).bind (outcome implied trim) =
      (run limit implied frames (bit :: back)).bind (outcome implied trim) := by
  rw [run_cons, run_cons]
  rcases frames with _ | ⟨_ | name | ⟨name, parts⟩, rest⟩
  · rfl
  · simp only [step, hb, hg, hblank, htrim]
  · simp only [step, hb, hg]
  · rw [step_text (isText_of_kind hb (by simp) (by simp)), step_text (isText_of_kind hg (by simp) (by simp))]
    exact hfilled name parts rest rfl

end Literal

theorem next_of_touches {implied trim : Bool} {back : List Bit} (h : TouchesAfter implied trim back)
    (rest : List Frame) : (∃ bit ∈ back.head?, bit.kind = .opening ∨ bit.kind = .closing) ∨
      back = [] ∧ (rule implied trim rest).atEnds = true := by
  refine h.imp id fun ⟨htrim, hnil⟩ => ⟨hnil, ?_⟩
  rcases htrim with rfl | rfl <;> simp [rule]

section Padded
variable {limit : Nat} {implied trim : Bool} {w : String} {front back : List Bit} {bit grown : Bit}
  (hw : Text.isBlank w = true) (hne : w ≠ "")
include hw hne

theorem read_last (hb : bit.kind = .literal) (hg : grown.fragment = (.literal, bit.text.toList ++ w.toList))
    (htouch : TouchesAfter implied trim back) (hbit : bit.text ≠ "") (hback : ∀ bit ∈ back, bit.text ≠ "") :
    read limit implied trim (front ++ grown :: back) = read limit implied trim (front ++ bit :: back) := by
  rw [← String.toList_append, fragment_eq_iff] at hg
  obtain ⟨hkind, htext⟩ := hg
  rw [read_append, read_append]
  -- As a name the literal is trimmed, and among nodes it is cut off at what comes next.
  refine Option.bind_congr fun frames _ => run_literal_congr hb hkind ?_ ?_ fun name parts rest _ => ?_
  · rw [htext, Text.isBlank_append, hw, Bool.and_true]
  · rw [htext, Text.trim_append_blank hw]
  · refine outcome_run_before hback (next_of_touches htouch rest) fun more hcut => ?_
    rw [htext, List.append_assoc, List.append_assoc]
    exact tidy_append_blank hw (Or.inr hne) (Or.inr hbit) hcut

theorem read_first (hb : bit.kind = .literal) (hg : grown.fragment = (.literal, w.toList ++ bit.text.toList))
    (htouch : TouchesBefore implied trim front) (hbit : bit.text ≠ "") (hback : ∀ bit ∈ back, bit.text ≠ "") :
    read limit implied trim (front ++ grown :: back) = read limit implied trim (front ++ bit :: back) := by
  rw [← String.toList_append, fragment_eq_iff] at hg
  obtain ⟨hkind, htext⟩ := hg
  rw [read_append, read_append]
  refine Option.bind_congr fun frames hrun => run_literal_congr hb hkind ?_ ?_ ?_
  · rw [htext, Text.isBlank_append, hw, Bool.true_and]
  · rw [htext, Text.trim_blank_append hw]
  · -- What stands before the literal is known already, so it may be followed by anything.
    rintro name parts rest rfl
    have hcut := cutsAt_of_touches hrun htouch
    have alike : Alike (rule implied trim rest) (parts ++ [.literal grown.text]) (parts ++ [.literal bit.text]) := by
      intro more _
      rw [htext, List.append_assoc, List.append_assoc]
      exact tidy_blank_append _ hw (Or.inr hne) (Or.inr hbit) hcut
    exact outcome_run_twins (.top alike) hback

theorem read_new {blank : Bit} (hblank : blank.fragment = (.literal, w.toList))
    (before : ∀ bit ∈ front.getLast?, bit.kind ≠ .literal) (after : ∀ bit ∈ back.head?, bit.kind ≠ .literal)
    (htouch : TouchesBefore implied trim front ∨ TouchesAfter implied trim back)
    (hfront : ∀ bit ∈ front, bit.text ≠ "") (hback : ∀ bit ∈ back, bit.text ≠ "") :
    read limit implied trim (front ++ blank :: back) = read limit implied trim (front ++ back) := by
  obtain ⟨hkind, htext⟩ := fragment_eq_iff.mp hblank
  rw [read_append, read_append]
  refine Option.bind_congr fun frames hrun => ?_
  rcases frames with _ | ⟨_ | name | ⟨name, parts⟩, rest⟩
  · rw [run_cons]
    cases back <;> rfl
  · -- No name can follow, neither this one nor what comes after it.
    have hstep : step limit implied (.opened :: rest) blank = none := by simp [step, htext, hw]
    rw [run_cons, hstep, run_opened after]
    rfl
  · -- A name has just been read, and that was a literal.
    obtain ⟨bit, hb, hk⟩ := literal_of_run hrun
    exact absurd hk (before bit hb)
  · rw [run_cons, step_text (isText_of_kind hkind (by simp) (by simp)), htext, Option.bind_some]
    have hlast : ∀ s, parts.getLast? = some (.literal s) → (rule implied trim rest).MayDrop s :=
      fun s hs => mayDrop_last hrun hfront hs
    have insert {more : List Node} (hcut : (rule implied trim rest).cutsAt parts.getLast? = true ∨
        (rule implied trim rest).cutsAt more.head? = true)
        (hmore : ∀ s, more.head? = some (.literal s) → (rule implied trim rest).MayDrop s) :
        tidy (rule implied trim rest) (parts ++ [.literal w] ++ more) =
          tidy (rule implied trim rest) (parts ++ more) := by
      rw [List.append_assoc]
      exact tidy_insert parts more hw (Or.inr hne) hcut hlast hmore
    rcases htouch with htouch | htouch
    · have alike : Alike (rule implied trim rest) (parts ++ [.literal w]) parts :=
        fun more hmore => insert (Or.inl (cutsAt_of_touches hrun htouch)) hmore
      exact outcome_run_twins (.top alike) hback
    · refine outcome_run_before hback (next_of_touches htouch rest) fun more hcut => insert (Or.inr hcut) ?_
      exact fun s hs => (head_ne_literal_of_cutsAt hcut s hs).elim

theorem read_padded {whole : List Bit} (padded : Padded w front back whole)
    (htouch : TouchesBefore implied trim front ∨ TouchesAfter implied trim back)
    (hbits : ∀ bit ∈ front ++ back, bit.text ≠ "") :
    read limit implied trim whole = read limit implied trim (front ++ back) := by
  cases padded with
  | @last front _ bit grown kind grows =>
    have hbefore : ¬TouchesBefore implied trim (front ++ [bit]) := by simp [TouchesBefore, IsBrace, kind]
    simp only [List.append_assoc, List.singleton_append, List.forall_mem_append, List.forall_mem_cons] at hbits ⊢
    exact read_last hw hne kind grows (htouch.resolve_left hbefore) hbits.2.1 hbits.2.2
  | @first _ back bit grown kind grows =>
    have hafter : ¬TouchesAfter implied trim (bit :: back) := by simp [TouchesAfter, IsBrace, kind]
    simp only [List.forall_mem_append, List.forall_mem_cons] at hbits
    exact read_first hw hne kind grows (htouch.resolve_right hafter) hbits.2.1 hbits.2.2
  | new before after stands =>
    rw [List.forall_mem_append] at hbits
    exact read_new hw hne stands before after htouch hbits.1 hbits.2

end Padded

/-- A text of nothing but white space has no nodes once it is trimmed, and it is no token. -/
theorem read_blank {limit : Nat} {implied trim : Bool} {w : String} (hw : Text.isBlank w = true)
    (htrim : trim = true ∨ implied = true) :
    read limit implied trim (scan w) = read limit implied trim (scan "") := by
  have hscan : scan w = [⟨.literal, w, 0⟩] := by simp [scan, isVerbatim, hw]
  rw [hscan, scan_empty]
  refine run_literal_congr rfl rfl hw ?_ fun name parts rest hframes => ?_
  · rw [← String.append_empty (s := w)]
    exact Text.trim_blank_append hw ""
  · cases implied with
    | true => cases hframes
    | false =>
      cases hframes
      obtain rfl : trim = true := htrim.resolve_right Bool.false_ne_true
      show outcome false true [.filled "" [.literal w]] = outcome false true [.filled "" [.literal ""]]
      exact outcome_exchange ((tidy_blank_cons rfl hw []).trans (tidy_blank_cons rfl rfl []).symm)

end Frame

/-! ### Texts -/

section Texts
variable {text w : String} {implied trim : Bool} {limit position : Nat}

/-- An offset next to a marker, or at an end of a text that is trimmed. -/
def BesideMarker (text : String) (implied trim : Bool) (position : Nat) : Prop :=
  (∃ bit ∈ scan text, bit.IsBrace ∧ (position = bit.position ∨ position = bit.stop)) ∨
    (trim = true ∨ implied = true) ∧ (position = 0 ∨ position = text.utf8ByteSize)

theorem exists_cut (h : BesideMarker text implied trim position) : ∃ front back, scan text = front ++ back ∧
    (joined front).utf8ByteSize = position ∧
      (Frame.TouchesBefore implied trim front ∨ Frame.TouchesAfter implied trim back) := by
  rcases h with ⟨bit, hb, hk, hp⟩ | ⟨htrim, rfl | rfl⟩
  · obtain ⟨front, back, hs⟩ := List.append_of_mem hb
    have hposition := position_of_scan hs
    rcases hp with rfl | rfl
    · exact ⟨front, bit :: back, hs, hposition.symm, Or.inr (Or.inl ⟨bit, rfl, hk⟩)⟩
    · refine ⟨front ++ [bit], back, by simp [hs], ?_, Or.inl (Or.inl ⟨bit, by simp, hk⟩)⟩
      simp [stop, hposition]
  · exact ⟨[], scan text, rfl, rfl, Or.inl (Or.inr ⟨htrim, rfl⟩)⟩
  · exact ⟨scan text, [], by simp, by rw [joined_scan], Or.inr (Or.inr ⟨htrim, rfl⟩)⟩

theorem append_eq_of_size {a b c d : String} (h : a ++ b = c ++ d) (hs : a.utf8ByteSize = c.utf8ByteSize) :
    a = c ∧ b = d := by
  have hchars : a.toList ++ b.toList = c.toList ++ d.toList := by
    rw [← String.toList_append, h, String.toList_append]
  have hsizes : String.utf8Len a.toList = String.utf8Len c.toList := by
    rw [String.utf8Len_toList, String.utf8Len_toList, hs]
  obtain ⟨more, hc, hb⟩ := Text.exists_append_of_utf8Len_le hchars hsizes.le
  rw [hc, String.utf8Len_append, Nat.left_eq_add, String.utf8Len_eq_zero] at hsizes
  subst hsizes
  exact ⟨String.toList_inj.mp (by simpa using hc.symm), String.toList_inj.mp (by simpa using hb)⟩

/-- In the empty text only its ends touch anything. -/
theorem trimmed_of_empty {front back : List Bit} (hs : scan "" = front ++ back)
    (htouch : Frame.TouchesBefore implied trim front ∨ Frame.TouchesAfter implied trim back) :
    trim = true ∨ implied = true := by
  have hkind : ∀ bit ∈ front ++ back, ¬bit.IsBrace := by
    rw [← hs, scan_empty]
    simp [IsBrace]
  rw [List.forall_mem_append] at hkind
  rcases htouch with (⟨bit, hb, hk⟩ | h) | (⟨bit, hb, hk⟩ | h)
  · exact absurd hk (hkind.1 bit (List.mem_of_getLast? hb))
  · exact h.1
  · exact absurd hk (hkind.2 bit (List.mem_of_mem_head? hb))
  · exact h.1

theorem parse_insert_cut (hw : Text.isBlank w = true) {front back : List Bit} (hs : scan text = front ++ back)
    (htouch : Frame.TouchesBefore implied trim front ∨ Frame.TouchesAfter implied trim back) (nodes : List Node) :
    parse (joined front ++ w ++ joined back) implied trim limit = .ok nodes ↔
      parse text implied trim limit = .ok nodes := by
  have htext : joined front ++ joined back = text := by rw [← joined_append, ← hs, joined_scan]
  by_cases hne : w = ""
  · rw [hne, String.append_empty, htext]
  by_cases ht : text = ""
  · subst ht
    obtain ⟨hf, hb⟩ : joined front = "" ∧ joined back = "" := by simpa using htext
    rw [hf, hb, String.empty_append, String.append_empty, parse_eq_ok_iff_read, parse_eq_ok_iff_read,
      Frame.read_blank hw (trimmed_of_empty hs htouch)]
  · obtain ⟨whole, padded, hmap⟩ := padded_scan hw hne ht hs
    have hbits : ∀ bit ∈ front ++ back, bit.text ≠ "" := fun bit hb => (fits_fragment.mp (fits_scan ht bit (hs ▸ hb))).1
    rw [parse_eq_ok_iff_read, parse_eq_ok_iff_read, hs, ← Frame.read_padded hw hne padded htouch hbits]
    rw [Frame.read, Frame.run_congr hmap, ← Frame.read]

/-- A text that is trimmed may as well be trimmed before it is read. -/
theorem parse_trim (text : String) (nodes : List Node) : parse (Text.trim text) implied true limit = .ok nodes ↔
    parse text implied true limit = .ok nodes := by
  obtain ⟨front, back, hfront, hback, ht⟩ := Text.exists_trim text
  have touches : Frame.TouchesBefore implied true [] ∧ Frame.TouchesAfter implied true [] :=
    ⟨Or.inr ⟨Or.inl rfl, rfl⟩, Or.inr ⟨Or.inl rfl, rfl⟩⟩
  have starts : parse (joined [] ++ front ++ joined (scan (Text.trim text))) implied true limit = .ok nodes ↔
      parse (Text.trim text) implied true limit = .ok nodes :=
    parse_insert_cut hfront (List.nil_append _).symm (Or.inl touches.1) nodes
  have ends : parse (joined (scan (front ++ Text.trim text)) ++ back ++ joined []) implied true limit = .ok nodes ↔
      parse (front ++ Text.trim text) implied true limit = .ok nodes :=
    parse_insert_cut hback (List.append_nil _).symm (Or.inr touches.2) nodes
  rw [joined_nil, String.empty_append, joined_scan] at starts
  rw [joined_scan, joined_nil, String.append_empty, ← ht] at ends
  exact starts.symm.trans ends.symm

/-- White space that is put next to a marker, or at an end that is trimmed, changes no tree, and makes no text
    acceptable that was not. -/
theorem parse_insert_blank (hw : Text.isBlank w = true) (hp : BesideMarker text implied trim position) :
    (∃ front back, text = front ++ back ∧ front.utf8ByteSize = position) ∧
      ∀ front back, text = front ++ back → front.utf8ByteSize = position → ∀ nodes,
        (parse (front ++ w ++ back) implied trim limit = .ok nodes ↔ parse text implied trim limit = .ok nodes) := by
  obtain ⟨front, back, hs, hsize, htouch⟩ := exists_cut hp
  have htext : text = joined front ++ joined back := by rw [← joined_append, ← hs, joined_scan]
  refine ⟨⟨joined front, joined back, htext, hsize⟩, fun first last hparts hfirst nodes => ?_⟩
  obtain ⟨rfl, rfl⟩ := append_eq_of_size (hparts.symm.trans htext) (hfirst.trans hsize.symm)
  exact parse_insert_cut hw hs htouch nodes

/-- A space and a tab before the end of a token: the tree of the text with them is that of the text without. -/
theorem parse_insert_before_end : Text.isBlank " \t" = true ∧ BesideMarker "a{{B:c}}" false false 6 ∧
    parse "a\x7b\x7bB:c \t\x7d\x7d" false false 3 = .ok [.literal "a", .token "B" (some [.literal "c"]) false] := by
  have hbeside : BesideMarker "a{{B:c}}" false false 6 :=
    Or.inl ⟨⟨.closing, "\x7d\x7d", 6⟩, by decide, Or.inr rfl, Or.inl rfl⟩
  have hblank : Text.isBlank " \t" = true := by decide
  have hread : parse "a{{B:c}}" false false 3 =
      .ok [.literal "a", .token "B" (some [.literal "c"]) false] := by decide +kernel
  obtain ⟨-, same⟩ := parse_insert_blank hblank hbeside
  exact ⟨hblank, hbeside, (same "a\x7b\x7bB:c" "\x7d\x7d" (by decide) (by decide) _).mpr hread⟩

end Texts

end Placeholder
