import Placeholder.Proofs.Grammar.Form
import Placeholder.Proofs.Splitting

/-! # Splitting without reading

A text without the delimiter, or without tokens, is split without being read. Where there are no tokens, the segments of
its nodes are the same. Where there is no delimiter, its nodes give one segment as well, since the delimiter does not
occur in their literals either; but that segment has the tokens as they are written, and the text may spell them in
another way. -/

namespace Placeholder
open Bit Node Grammar Text

/-! ### Elements against the text -/

namespace Element

/-- Elements and a text that they are read from: a character stands for itself, and a node that is left whole for any
    stretch of the text. -/
inductive Covers : List Element → List Char → Prop where
  | nil : Covers [] []
  | char {xs : List Element} {cs : List Char} (c : Char) (rest : Covers xs cs) : Covers (.char c :: xs) (c :: cs)
  | whole {xs : List Element} {cs : List Char} (node : Node) (front : List Char) (rest : Covers xs cs) :
      Covers (.whole node :: xs) (front ++ cs)

section Covers
variable {xs : List Element} {cs ds : List Char}

theorem Covers.letters (h : Covers xs cs) (s : String) : Covers (letters s ++ xs) (s.toList ++ cs) := by
  unfold Element.letters
  induction s.toList with
  | nil => exact h
  | cons c tail ih => exact .char c ih

theorem Covers.isPrefix (h : Covers xs cs) (hp : ds.map .char <+: xs) : ds <+: cs := by
  induction h generalizing ds with
  | nil => simpa using hp
  | char c rest ih =>
    cases ds with
    | nil => exact List.nil_prefix
    | cons d ds =>
      rw [List.map_cons, List.cons_prefix_cons] at hp
      obtain ⟨hd, hp⟩ := hp
      rw [List.cons_prefix_cons]
      exact ⟨char_injective hd, ih hp⟩
  | whole node front rest =>
    cases ds with
    | nil => exact List.nil_prefix
    | cons d ds =>
      rw [List.map_cons, List.cons_prefix_cons] at hp
      exact absurd hp.1 nofun

/-- What occurs in the characters occurs in the text. -/
theorem Covers.isInfix (h : Covers xs cs) (hi : ds.map .char <:+: xs) : ds <:+: cs := by
  induction h with
  | nil => simpa using hi
  | @char xs cs c rest ih =>
    rw [List.infix_cons_iff] at hi ⊢
    exact hi.imp (Covers.char c rest).isPrefix ih
  | whole node front rest ih =>
    rw [List.infix_cons_iff] at hi
    rcases hi with hp | hi
    · exact ((Covers.whole node front rest).isPrefix hp).isInfix
    · exact (ih hi).trans (List.suffix_append front _).isInfix

end Covers

theorem elements_eq_flatMap (nodes : List Node) : elements nodes = nodes.flatMap fun node => elements [node] := by
  induction nodes with
  | nil => rfl
  | cons node rest ih =>
    rw [List.flatMap_cons, ← ih]
    cases node <;> simp [elements]

theorem elements_merge (nodes : List Node) : elements (merge nodes) = elements nodes := by
  rw [elements_eq_flatMap, elements_eq_flatMap, flatMap_merge fun s t => by simp [elements, letters]]

end Element

open Element

theorem Grammar.Sequence.covers {limit depth : Nat} {bits : List Bit} {items : List Node}
    (h : Sequence limit depth bits items) : Covers (elements items) (joined bits).toList := by
  induction h using Sequence.flat_induction with
  | nil => exact .nil
  | text plain rest ih =>
    rw [joined_cons, String.toList_append]
    exact ih.letters _
  | token first others ih =>
    rw [joined_append, String.toList_append, elements_rigid first.isRigid]
    exact .whole _ _ ih

section Read
variable {text : String} {limit : Nat} {nodes : List Node}

theorem covers_of_parse (h : parseUnder ⟨false, false⟩ limit false text = .ok nodes) :
    Covers (elements nodes) text.toList := by
  obtain ⟨items, whole, rfl⟩ := parseUnder_eq_ok_iff.mp h
  cases whole with
  | mixed sequence =>
    rw [tidy_eq_merge, elements_merge, ← joined_scan text]
    exact sequence.covers

/-- A delimiter that does not occur in a text is no place to cut its nodes. -/
theorem nodeSegments_of_absent {delimiter : String} (hd : delimiter ≠ "")
    (hc : ¬delimiter.toList <:+: text.toList) (h : parseUnder ⟨false, false⟩ limit false text = .ok nodes) :
    Splitting.nodeSegments delimiter nodes = [renderAll nodes] := by
  have habsent : ¬letters delimiter <:+: elements nodes := mt (covers_of_parse h).isInfix hc
  rw [nodeSegments_eq hd (merged_of_parse h), cut_of_absent habsent, List.map_singleton, spell_elements]

end Read

/-! ### The ways of splitting -/

namespace Splitting

/-- A segment, trimmed if that is asked for. -/
def cleaned (splitting : Splitting) (segment : String) : String :=
  if splitting.trim then Text.trim segment else segment

variable {splitting : Splitting} {text : String} {nodes : List Node}

theorem finish_cons (splitting : Splitting) (segment : String) (rest : List String) :
    splitting.finish (segment :: rest) =
      if splitting.dropEmpty && (splitting.cleaned segment).isEmpty then splitting.finish rest
      else splitting.cleaned segment :: splitting.finish rest := by
  have hclean : (if splitting.trim then (segment :: rest).map Text.trim else segment :: rest) =
      splitting.cleaned segment :: if splitting.trim then rest.map Text.trim else rest := by
    rw [cleaned]
    split <;> rfl
  rw [finish, hclean, List.filter_cons, finish]
  cases splitting.dropEmpty && (splitting.cleaned segment).isEmpty <;> rfl

theorem finish_nil (splitting : Splitting) : splitting.finish [] = [] := by
  simp [finish]

theorem finish_singleton (splitting : Splitting) (segment : String) : splitting.finish [segment] =
    if splitting.dropEmpty && (splitting.cleaned segment).isEmpty then [] else [splitting.cleaned segment] := by
  rw [finish_cons, finish_nil]

/-- Only segments that are empty once they are trimmed are left out, so that nothing else becomes the same. -/
theorem finish_singleton_inj {segment other : String} :
    splitting.finish [segment] = splitting.finish [other] ↔ splitting.cleaned segment = splitting.cleaned other := by
  have empty {s : String} (h : (splitting.dropEmpty && s.isEmpty) = true) : s = "" :=
    String.isEmpty_iff.mp (Bool.and_eq_true_iff.mp h).2
  refine ⟨fun h => ?_, fun h => ?_⟩
  · rw [finish_singleton, finish_singleton] at h
    split at h
    · next hs =>
      split at h
      · next ho => rw [empty hs, empty ho]
      · cases h
    · split at h
      · cases h
      · exact (List.cons.inj h).1
  · rw [finish_singleton, finish_singleton, h]

theorem course_eq_whole_iff : splitting.course text = .whole ↔
    ¬(splitting.delimiter ≠ "" ∧ splitting.delimiter.toList <:+: text.toList) := by
  rw [← occurs_iff, course]
  cases Text.occurs splitting.delimiter.toList text.toList <;> cases mayHoldToken text <;>
    by_cases hd : splitting.delimiter = "" <;> simp [hd]

theorem course_of_absent (h : ¬splitting.delimiter.toList <:+: text.toList) : splitting.course text = .whole :=
  course_eq_whole_iff.mpr fun hcut => h hcut.2

/-- The segments of a text in which the delimiter occurs are those of its nodes, whether it had to be read or not. A text
    without the delimiter stays as it stands, while its nodes give the text in which they are written: the two agree if
    the spelling does, up to trimming. In a text that holds no opening marker it always does. -/
theorem segments_eq_iff (hd : splitting.delimiter ≠ "")
    (h : parseUnder ⟨false, false⟩ splitting.limit false text = .ok nodes) :
    (splitting.delimiter.toList <:+: text.toList →
      splitting.segments text = .ok (splitting.finish (nodeSegments splitting.delimiter nodes))) ∧
    (¬splitting.delimiter.toList <:+: text.toList →
      splitting.segments text = .ok (splitting.finish [text]) ∧
      nodeSegments splitting.delimiter nodes = [renderAll nodes] ∧
      (splitting.segments text = .ok (splitting.finish (nodeSegments splitting.delimiter nodes)) ↔
        splitting.cleaned text = splitting.cleaned (renderAll nodes))) ∧
    (mayHoldToken text = false → renderAll nodes = text) := by
  refine ⟨fun hc => ?_, fun hc => ?_, fun hm => ?_⟩
  · -- With or without reading, the characters and tokens of the text are cut.
    have hraw : splitting.rawSegments text = .ok (nodeSegments splitting.delimiter nodes) := by
      rw [nodeSegments_eq hd (merged_of_parse h)]
      exact rawSegments_eq hd hc h
    rw [segments, hraw]
    rfl
  · have hwhole : splitting.segments text = .ok (splitting.finish [text]) := by
      rw [segments, rawSegments, course_of_absent hc]
      rfl
    have hnodes := nodeSegments_of_absent hd hc h
    refine ⟨hwhole, hnodes, ?_⟩
    rw [hwhole, hnodes, Except.ok.injEq, finish_singleton_inj]
  · obtain rfl := nodes_of_plain hm h
    simp [renderAll, Node.render]

/-- A token that is spelled as it is written, with white space around it that is trimmed. -/
theorem segments_eq_spelt :
    parseUnder ⟨false, false⟩ defaultLimit false " {{A: b|c}} " =
      .ok [.literal " ", .token "A" (some [.literal "b|c"]) false, .literal " "] ∧
    ({} : Splitting).segments " {{A: b|c}} " =
      .ok (({} : Splitting).finish (nodeSegments ({} : Splitting).delimiter
        [.literal " ", .token "A" (some [.literal "b|c"]) false, .literal " "])) := by
  have hread : parseUnder ⟨false, false⟩ defaultLimit false " {{A: b|c}} " =
      .ok [.literal " ", .token "A" (some [.literal "b|c"]) false, .literal " "] := by decide +kernel
  obtain ⟨-, habsent, -⟩ := segments_eq_iff (by decide : ({} : Splitting).delimiter ≠ "") hread
  obtain ⟨-, -, heq⟩ := habsent (by decide)
  exact ⟨hread, heq.mpr (by decide +kernel)⟩

/-- A token that is written with a space after its separator, and spelled without one. -/
theorem segments_ne_spelt :
    ({} : Splitting).delimiter ≠ "" ∧
    parseUnder ⟨false, false⟩ defaultLimit false "{{A:b}}" =
      .ok [.token "A" (some [.literal "b"]) false] ∧
    ({} : Splitting).segments "{{A:b}}" = .ok ["{{A:b}}"] ∧
    ({} : Splitting).segments "{{A:b}}" ≠
      .ok (({} : Splitting).finish (nodeSegments ({} : Splitting).delimiter
        [.token "A" (some [.literal "b"]) false])) := by
  refine ⟨?_, ?_, ?_, ?_⟩ <;> decide +kernel

end Splitting

end Placeholder
