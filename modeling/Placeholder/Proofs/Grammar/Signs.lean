import Placeholder.Proofs.Bit.Canonical
import Placeholder.Proofs.Bit.Signs
import Placeholder.Proofs.Grammar.Derivation
import Placeholder.Proofs.Node.Normal

/-! # Signs of nodes

The signs of a tree, in the order of its text. A derivation and the tidying of its nodes keep the signs of the
bits. -/

namespace Placeholder.Grammar
open Bit Node

/-- The signs of a token around those of its content. -/
def wrap (implied : Bool) (content : List (List Char)) : List (List Char) :=
  if implied then content else Kind.opening.marker :: (content ++ [Kind.closing.marker])

mutual

/-- The signs of a node. -/
def nodeSigns : Node → List (List Char)
  | .literal text => lone text.toList
  | .token name none implied => wrap implied (lone name.toList)
  | .token name (some parts) implied => wrap implied (lone name.toList ++ nodeSignsAll parts)
  | .input parts => nodeSignsAll parts
termination_by structural node => node

/-- The signs of a sequence of nodes. -/
def nodeSignsAll : List Node → List (List Char)
  | [] => []
  | node :: rest => nodeSigns node ++ nodeSignsAll rest
termination_by structural nodes => nodes

end

/-! ### Tidying keeps the signs -/

theorem not_isBrace_of_isBlankChar {c : Char} (h : Text.isBlankChar c = true) : isBrace c = false := by
  simp [isBrace, ne_brace_of_blank h]

theorem lone_trimStart (s : String) : lone (Text.trimStart s).toList = lone s.toList := by
  rw [lone, Text.toList_trimStart, Text.filter_dropBlanks fun _ => not_isBrace_of_isBlankChar, ← lone]

theorem lone_trimEnd (s : String) : lone (Text.trimEnd s).toList = lone s.toList := by
  rw [lone, Text.toList_trimEnd, Text.filter_dropBlanksRight fun _ => not_isBrace_of_isBlankChar, ← lone]

theorem lone_trim (s : String) : lone (Text.trim s).toList = lone s.toList := by
  rw [Text.trim, lone_trimEnd, lone_trimStart]

theorem blind_nodeSigns : Blind nodeSigns where
  append s t := by rw [nodeSigns, nodeSigns, nodeSigns, String.toList_append, lone_append]
  trimStart s := by rw [nodeSigns, nodeSigns, lone_trimStart]
  trimEnd s := by rw [nodeSigns, nodeSigns, lone_trimEnd]

theorem nodeSignsAll_eq (nodes : List Node) : nodeSignsAll nodes = nodes.flatMap nodeSigns := by
  induction nodes with
  | nil => rfl
  | cons node rest ih => rw [nodeSignsAll, ih, List.flatMap_cons]

theorem nodeSignsAll_merge (nodes : List Node) : nodeSignsAll (merge nodes) = nodeSignsAll nodes := by
  rw [nodeSignsAll_eq, nodeSignsAll_eq, blind_nodeSigns.merge]

theorem nodeSignsAll_tidy (rule : Rule) (nodes : List Node) : nodeSignsAll (tidy rule nodes) = nodeSignsAll nodes := by
  rw [nodeSignsAll_eq, nodeSignsAll_eq, blind_nodeSigns.tidy]

/-! ### A derivation keeps the signs -/

theorem signs_bit {bit : Bit} (h : IsText bit) : signs bit.fragment = lone bit.text.toList :=
  signs_of_text h

theorem signs_name {name : Bit} (named : IsName name) : signs name.fragment = lone (Text.trim name.text).toList := by
  rw [signs_bit (isText_of_kind named.1 (by simp) (by simp)), lone_trim]

theorem lone_separator {bit : Bit} (hk : bit.kind = .positional ∨ bit.kind = .named) (hf : Fits bit.fragment) :
    lone bit.text.toList = [] := by
  have hm : bit.text.toList = bit.kind.marker := by
    rcases hk with hk | hk <;> rw [fragment, hk] at hf <;> rw [hk] <;> exact hf
  rw [hm, lone, List.map_eq_nil_iff, List.filter_eq_nil_iff]
  intro c hc
  have hne := not_brace_of_separator hk hc
  simpa [isBrace] using hne

theorem signs_marker {bit : Bit} (hk : bit.kind = .opening ∨ bit.kind = .closing) (hf : Fits bit.fragment) :
    signs bit.fragment = [bit.kind.marker] := by
  rw [fragment] at hf ⊢
  rcases hk with hk | hk <;> rw [hk] at hf ⊢ <;> rw [show bit.text.toList = _ from hf] <;> rfl

mutual

theorem Sequence.signs_eq {limit depth : Nat} {bits : List Bit} {nodes : List Node} :
    Sequence limit depth bits nodes → (∀ bit ∈ bits, Fits bit.fragment) →
      nodeSignsAll nodes = bits.flatMap fun bit => signs bit.fragment
  | .nil, _ => rfl
  | .text plain rest, hf => by
    rw [List.forall_mem_cons] at hf
    rw [nodeSignsAll, nodeSigns, List.flatMap_cons, signs_bit plain, rest.signs_eq hf.2]
  | .token first others, hf => by
    rw [List.forall_mem_append] at hf
    rw [nodeSignsAll, List.flatMap_append, first.signs_eq hf.1, others.signs_eq hf.2]

theorem Token.signs_eq {limit depth : Nat} {bits : List Bit} {node : Node} :
    Token limit depth bits node → (∀ bit ∈ bits, Fits bit.fragment) →
      nodeSigns node = bits.flatMap fun bit => signs bit.fragment
  | .braced _ opens named argued closes, hf => by
    rw [List.forall_mem_cons, ← List.cons_append, List.forall_mem_append] at hf
    obtain ⟨hopening, hcall, hclosing⟩ := hf
    have hfirst := signs_marker (Or.inl opens) hopening
    have hlast := signs_marker (Or.inr closes) (hclosing _ (List.mem_singleton.mpr rfl))
    rw [opens] at hfirst
    rw [closes] at hlast
    rw [argued.signs_eq named false hcall]
    simp [wrap, hfirst, hlast]

theorem Input.signs_eq {limit depth : Nat} {bits : List Bit} {input : Option (List Node)} {name : Bit}
    (named : IsName name) (implied : Bool) : Input limit depth bits input →
      (∀ bit ∈ name :: bits, Fits bit.fragment) → nodeSigns (.call name.text input implied) =
        wrap implied ((name :: bits).flatMap fun bit => signs bit.fragment)
  | .none, _ => by
    rw [call, nodeSigns, List.flatMap_singleton, signs_name named]
  | @Input.positional _ _ bit _ _ kind inner, hf => by
    rw [List.forall_mem_cons, List.forall_mem_cons] at hf
    have hbit : signs bit.fragment = [] := by
      rw [signs_bit (isText_of_kind kind (by simp) (by simp)), lone_separator (Or.inl kind) hf.2.1]
    rw [call, nodeSigns, List.flatMap_cons, List.flatMap_cons, signs_name named, hbit, List.nil_append,
      nodeSignsAll_tidy, inner.signs_eq hf.2.2]
  | @Input.named _ _ _ _ _ kind inner, hf => by
    rw [List.forall_mem_cons, List.forall_mem_cons] at hf
    rw [call, nodeSigns, List.flatMap_cons, List.flatMap_cons, signs_name named, nodeSignsAll_tidy, nodeSignsAll,
      nodeSigns, signs_bit (isText_of_kind kind (by simp) (by simp)), inner.signs_eq hf.2.2]

end

theorem Whole.signs_eq {limit : Nat} {implied : Bool} {bits : List Bit} {nodes : List Node} :
    Whole limit implied bits nodes → (∀ bit ∈ bits, Fits bit.fragment) →
      nodeSignsAll nodes = bits.flatMap fun bit => signs bit.fragment
  | .mixed sequence, hf => sequence.signs_eq hf
  | .sole named argued, hf => by
    rw [nodeSignsAll, nodeSignsAll, List.append_nil, argued.signs_eq named true hf]
    rfl

end Placeholder.Grammar
