import Placeholder.Node.Render
import Placeholder.Proofs.Accepted
import Placeholder.Proofs.Grammar.Form

/-! # Names in the order of the text

The names that a tree calls, those of a token before those in its input, are the names that stand after the opening
markers of its text from left to right. Tidying passes over names, and what a token calls are the names of its own
bits, whatever comes after it. -/

namespace Placeholder
open Bit Node Grammar

/-! ### Names of bits -/

namespace Bit

/-- The next bit as a name, if there is one. -/
def nextName (bits : List Bit) : List String :=
  (bits.head?.map fun bit => Text.trim bit.text).toList

/-- The names after the opening markers of some bits, from left to right. -/
def calls : List Bit → List String
  | [] => []
  | bit :: rest => if bit.kind = .opening then nextName rest ++ calls rest else calls rest

/-- The names in the bits of a whole text, where an implied token is named by the first bit. -/
def callsOf (implied : Bool) (bits : List Bit) : List String :=
  if implied then nextName bits ++ calls bits else calls bits

section Calls
variable {bit : Bit} {bits rest : List Bit}

theorem calls_skip (h : bit.kind ≠ .opening) (rest : List Bit) : calls (bit :: rest) = calls rest := by
  rw [calls, if_neg h]

theorem calls_opening {name : Bit} (h : bit.kind = .opening) (hn : name.kind ≠ .opening) (rest : List Bit) :
    calls (bit :: name :: rest) = Text.trim name.text :: calls rest := by
  rw [calls, if_pos h, calls_skip hn]
  rfl

end Calls

end Bit

/-! ### Names of nodes -/

namespace Node

theorem namesAll_eq (nodes : List Node) : namesAll nodes = nodes.flatMap names := by
  induction nodes with
  | nil => rfl
  | cons node rest ih => rw [namesAll, ih, List.flatMap_cons]

theorem namesAll_append (front back : List Node) : namesAll (front ++ back) = namesAll front ++ namesAll back := by
  rw [namesAll_eq, namesAll_eq, namesAll_eq, List.flatMap_append]

theorem blind_names : Blind names :=
  ⟨fun _ _ => rfl, fun _ => rfl, fun _ => rfl⟩

theorem namesAll_tidy (rule : Rule) (nodes : List Node) : namesAll (tidy rule nodes) = namesAll nodes := by
  rw [namesAll_eq, namesAll_eq, blind_names.tidy]

theorem namesAll_merge (nodes : List Node) : namesAll (merge nodes) = namesAll nodes := by
  rw [namesAll_eq, namesAll_eq, blind_names.merge]

theorem namesAll_filter (nodes : List Node) : namesAll (nodes.filter isRigid) = namesAll nodes := by
  induction nodes with
  | nil => rfl
  | cons node rest ih =>
    rcases isRigid_or_literal node with hn | ⟨s, rfl⟩
    · rw [List.filter_cons_of_pos hn, namesAll, ih, namesAll]
    · rw [filter_isRigid_literal, ih, namesAll, names, List.nil_append]

theorem isRigid_of_isToken {node : Node} (h : node.isToken = true) : node.isRigid = true := by
  cases node with
  | literal s => cases h
  | token | input => rfl

/-- Tidying keeps every token and makes none. -/
theorem exists_isToken_tidy (rule : Rule) (nodes : List Node) :
    (∃ node ∈ tidy rule nodes, node.isToken = true) ↔ ∃ node ∈ nodes, node.isToken = true := by
  constructor
  · rintro ⟨node, hm, ht⟩
    rcases mem_tidy hm with hm | ⟨s, rfl⟩
    · exact ⟨node, hm, ht⟩
    · cases ht
  · rintro ⟨node, hm, ht⟩
    have hkept : node ∈ (tidy rule nodes).filter isRigid := by
      rw [filter_tidy]
      exact List.mem_filter.mpr ⟨hm, isRigid_of_isToken ht⟩
    exact ⟨node, (List.mem_filter.mp hkept).1, ht⟩

end Node

/-! ### A derivation keeps the names -/

namespace Grammar
variable {limit : Nat}

mutual

theorem Sequence.calls_eq {depth : Nat} {bits : List Bit} {nodes : List Node} (rest : List Bit) :
    Sequence limit depth bits nodes → calls (bits ++ rest) = namesAll nodes ++ calls rest
  | .nil => rfl
  | .text plain others => by
    rw [List.cons_append, calls_skip plain.1, others.calls_eq rest, namesAll, names, List.nil_append]
  | .token first others => by
    rw [List.append_assoc, first.calls_eq, others.calls_eq rest, namesAll, List.append_assoc]

theorem Token.calls_eq {depth : Nat} {bits : List Bit} {node : Node} (rest : List Bit) :
    Token limit depth bits node → calls (bits ++ rest) = names node ++ calls rest
  | @Token.braced _ _ opening name closing _ _ _ opens named argued closes => by
    have hname : name.kind ≠ .opening := by simp [named.1]
    have hclosing : closing.kind ≠ .opening := by simp [closes]
    rw [List.cons_append, List.cons_append, calls_opening opens hname, List.append_assoc, List.singleton_append,
      argued.calls_eq _ name.text false, calls_skip hclosing]

theorem Input.calls_eq {depth : Nat} {bits : List Bit} {input : Option (List Node)} (rest : List Bit) (name : String)
    (implied : Bool) : Input limit depth bits input →
      Text.trim name :: calls (bits ++ rest) = names (.call name input implied) ++ calls rest
  | .none => rfl
  | .positional kind content => by
    rw [List.cons_append, calls_skip (by simp [kind]), content.calls_eq rest, call, names, namesAll_tidy]
    rfl
  | .named kind content => by
    rw [List.cons_append, calls_skip (by simp [kind]), content.calls_eq rest, call, names, namesAll_tidy, namesAll, names]
    rfl

end

theorem Whole.calls_eq {implied : Bool} {bits : List Bit} {nodes : List Node} (h : Whole limit implied bits nodes) :
    namesAll nodes = callsOf implied bits := by
  cases h with
  | mixed sequence =>
    have hall := sequence.calls_eq []
    rw [List.append_nil, calls, List.append_nil] at hall
    exact hall.symm
  | @sole name bits input named argued =>
    have hname : name.kind ≠ .opening := by simp [named.1]
    have hall := argued.calls_eq [] name.text true
    rw [List.append_nil, calls, List.append_nil] at hall
    rw [namesAll, namesAll, List.append_nil, ← hall, callsOf, if_pos rfl, calls_skip hname]
    rfl

/-- There is a token among the nodes if there is an opening marker among the bits. -/
theorem Sequence.isToken_iff {depth : Nat} {bits : List Bit} {nodes : List Node}
    (h : Sequence limit depth bits nodes) :
    (∃ node ∈ nodes, node.isToken = true) ↔ ∃ bit ∈ bits, bit.kind = .opening := by
  induction h using Sequence.flat_induction with
  | nil => simp
  | @text bit bits nodes plain rest ih =>
    have hliteral : (Node.literal bit.text).isToken = false := rfl
    simp [hliteral, plain.1, ih]
  | token first others =>
    obtain ⟨opening, more, rfl, opens⟩ := first.eq_cons
    refine iff_of_true ⟨_, List.mem_cons_self, ?_⟩ ⟨opening, by simp, opens⟩
    cases first
    rfl

end Grammar

/-! ### Texts -/

section Texts
variable {text : String} {implied trim : Bool} {limit : Nat} {nodes : List Node}

/-- The names of a tree are those in the bits of its text, from left to right. Outside of an implied token, there is a
    token in the tree if the text holds two opening braces in a row. -/
theorem names_of_parse (h : parse text implied trim limit = .ok nodes) :
    namesAll nodes = callsOf implied (scan text) ∧
      (implied = false → ((∃ node ∈ nodes, node.isToken = true) ↔ mayHoldToken text = true)) := by
  obtain ⟨items, whole, rfl⟩ := parse_eq_ok_iff.mp h
  refine ⟨by rw [namesAll_tidy, whole.calls_eq], ?_⟩
  rintro rfl
  rw [mayHoldToken_iff, exists_isToken_tidy]
  cases whole with
  | mixed sequence => exact sequence.isToken_iff

/-- Names at three depths and after a token; a brace on its own opens none. -/
theorem names_of_parse_nested :
    parse "\x7b {{ A :{{B|x={{C}}}}}}{{A}}" false true 2 =
        .ok [.literal "\x7b", .token "A" (some [.token "B" (some [.literal "|x=", .token "C" none false]) false]) false,
          .token "A" none false] ∧
      callsOf false (scan "\x7b {{ A :{{B|x={{C}}}}}}{{A}}") =
        ["A", "B", "C", "A"] ∧
      mayHoldToken "\x7b {{ A :{{B|x={{C}}}}}}{{A}}" = true := by
  have hread : parse "\x7b {{ A :{{B|x={{C}}}}}}{{A}}" false true 2 =
      .ok [.literal "\x7b", .token "A" (some [.token "B" (some [.literal "|x=", .token "C" none false]) false]) false,
        .token "A" none false] := by decide +kernel
  obtain ⟨hnames, htoken⟩ := names_of_parse hread
  exact ⟨hread, hnames.symm, (htoken rfl).mp ⟨.token "A" none false, by simp, rfl⟩⟩

end Texts

end Placeholder
