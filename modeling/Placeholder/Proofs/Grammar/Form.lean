import Placeholder.Proofs.Bit.Canonical
import Placeholder.Proofs.Grammar.Derivation
import Placeholder.Proofs.Node.Formed

/-! # The form of derived nodes

Whatever bits they come from, derived nodes are well formed. From a clean cut of a text they are spelt, too: only
literals and separators end up in one literal, and among these no two braces meet. -/

namespace Placeholder.Grammar
open Bit Node

/-! ### Well formed -/

mutual

theorem Sequence.wellFormed {limit depth : Nat} {bits : List Bit} {nodes : List Node} :
    Sequence limit depth bits nodes → WellFormedAll limit depth false nodes
  | .nil => by
    rw [WellFormedAll]
    trivial
  | .text _ rest => by
    rw [WellFormedAll, WellFormed]
    exact ⟨trivial, rest.wellFormed⟩
  | .token first others => by
    rw [WellFormedAll]
    exact ⟨first.wellFormed, others.wellFormed⟩

theorem Token.wellFormed {limit depth : Nat} {bits : List Bit} {node : Node} :
    Token limit depth bits node → WellFormed limit depth false node
  | .braced fits _ named argued _ => argued.wellFormed fits named false

theorem Input.wellFormed {limit depth : Nat} {bits : List Bit} {input : Option (List Node)} {name : Bit}
    (fits : depth ≤ limit) (named : IsName name) (implied : Bool) :
    Input limit depth bits input → WellFormed limit depth implied (.call name.text input implied)
  | .none => by
    rw [call, WellFormed]
    exact ⟨fits, rfl, Text.trim_ne_empty named.2, Text.trim_trim name.text⟩
  | .positional _ inner => by
    rw [call, WellFormed]
    exact ⟨⟨fits, rfl, Text.trim_ne_empty named.2, Text.trim_trim name.text⟩, normal_tidy _ _, inner.wellFormed.tidy _⟩
  | @Input.named _ _ bit _ nodes _ inner => by
    have hall : WellFormedAll limit (depth + 1) false (.literal bit.text :: nodes) := by
      rw [WellFormedAll, WellFormed]
      exact ⟨trivial, inner.wellFormed⟩
    rw [call, WellFormed]
    exact ⟨⟨fits, rfl, Text.trim_ne_empty named.2, Text.trim_trim name.text⟩, normal_tidy _ _, hall.tidy _⟩

end

theorem Whole.wellFormed {limit : Nat} {implied : Bool} {bits : List Bit} {nodes : List Node} :
    Whole limit implied bits nodes → WellFormedAll limit 0 implied nodes
  | .mixed sequence => sequence.wellFormed
  | .sole named argued => by
    rw [WellFormedAll, WellFormedAll]
    exact ⟨argued.wellFormed (Nat.zero_le limit) named true, trivial⟩

/-! ### Spelt -/

section Spelt
variable {limit depth : Nat} {bit : Bit} {bits : List Bit} {nodes : List Node}

theorem Token.isRigid {node : Node} (h : Token limit depth bits node) : node.isRigid = true := by
  cases h
  rfl

theorem Sequence.head_merge {more : String} (h : Sequence limit depth bits nodes)
    (hf : ∀ f ∈ bits.map fragment, Fits f) (hm : (merge nodes).head? = some (.literal more)) :
    ∃ first rest, bits = first :: rest ∧ IsText first ∧ more.toList.head? = first.text.toList.head? := by
  cases h with
  | nil => cases hm
  | @text _ bit bits nodes plain rest =>
    refine ⟨bit, bits, rfl, plain, ?_⟩
    have hne : bit.text.toList ≠ [] := fits_ne_nil (hf bit.fragment (by simp))
    rcases merge_literal_cases bit.text nodes with ⟨t, others, -, ht⟩ | ⟨-, ht⟩
    · obtain rfl : bit.text ++ t = more := by simpa [ht] using hm
      rw [String.toList_append, List.head?_append_of_ne_nil _ hne]
    · obtain rfl : bit.text = more := by simpa [ht] using hm
      rfl
  | token first others =>
    rw [merge_rigid first.isRigid, List.head?_cons, Option.some.injEq] at hm
    exact absurd hm (ne_literal_of_isRigid first.isRigid more)

/-- No two braces meet where a bit of text is put in front of a literal. -/
theorem spelt_merge_text (plain : IsText bit) (hc : Clean ((bit :: bits).map fragment))
    (h : Sequence limit depth bits nodes) (hs : SpeltAll (merge nodes)) :
    SpeltAll (merge (.literal bit.text :: nodes)) := by
  rw [List.map_cons, clean_cons] at hc
  obtain ⟨hfits, hparts, hclean⟩ := hc
  have hne : bit.text ≠ "" := mt String.toList_eq_nil_iff.mpr (fits_ne_nil hfits)
  have hunpaired : Unpaired bit.text.toList := unpaired_of_fits hfits plain
  rcases merge_literal_cases bit.text nodes with ⟨more, others, hr, hm⟩ | ⟨-, hm⟩ <;> rw [hm, SpeltAll, Spelt]
  · rw [hr, SpeltAll, Spelt] at hs
    obtain ⟨first, rest, rfl, hfirst, hhead⟩ := h.head_merge hclean.fits (by rw [hr]; rfl)
    rw [List.map_cons] at hparts hclean
    refine ⟨⟨?_, ?_⟩, hs.2⟩
    · rw [Ne, String.append_eq_empty_iff]
      exact fun he => hne he.1
    · rw [String.toList_append, unpaired_append]
      refine ⟨hunpaired, hs.1.2, ?_⟩
      rw [hhead]
      exact single_of_parts hfits (hclean.fits _ List.mem_cons_self) plain hfirst (hparts _ rfl)
  · exact ⟨⟨hne, hunpaired⟩, hs⟩

theorem fits_name (named : IsName bit) (hf : Fits bit.fragment) : Fits (.literal, (Text.trim bit.text).toList) := by
  rw [fragment, named.1] at hf
  exact ⟨mt String.toList_eq_nil_iff.mp (Text.trim_ne_empty named.2), plain_of_isInfix hf.2 (Text.trim_isInfix bit.text)⟩

theorem spelt_tidy (rule : Rule) (h : SpeltAll (merge nodes)) : SpeltAll (tidy rule nodes) :=
  h.settle rule none

end Spelt

mutual

/-- The nodes of a clean cut are spelt once their literals are merged. -/
theorem Sequence.spelt {limit depth : Nat} {bits : List Bit} {nodes : List Node} :
    Sequence limit depth bits nodes → Clean (bits.map fragment) → SpeltAll (merge nodes)
  | .nil, _ => by
    rw [merge, SpeltAll]
    trivial
  | .text plain rest, hc => spelt_merge_text plain hc rest (rest.spelt (clean_cons.mp hc).2.2)
  | .token first others, hc => by
    rw [List.map_append] at hc
    have hfirst := first.spelt hc.of_append.1
    have hothers := others.spelt hc.of_append.2
    rw [merge_rigid first.isRigid, SpeltAll]
    exact ⟨hfirst, hothers⟩

theorem Token.spelt {limit depth : Nat} {bits : List Bit} {node : Node} :
    Token limit depth bits node → Clean (bits.map fragment) → Spelt node
  | .braced _ _ named argued _, hc => by
    rw [List.map_cons, List.map_cons, List.map_append, clean_cons, ← List.cons_append] at hc
    exact argued.spelt named hc.2.2.of_append.1

theorem Input.spelt {limit depth : Nat} {bits : List Bit} {input : Option (List Node)} {name : Bit} {implied : Bool}
    (named : IsName name) : Input limit depth bits input → Clean ((name :: bits).map fragment) →
      Spelt (.call name.text input implied)
  | .none, hc => by
    rw [call, Spelt]
    exact fits_name named (clean_cons.mp hc).1
  | .positional _ inner, hc => by
    have hclean := (clean_cons.mp (clean_cons.mp hc).2.2).2.2
    rw [call, Spelt]
    exact ⟨fits_name named (clean_cons.mp hc).1, spelt_tidy _ (inner.spelt hclean)⟩
  | .named kind inner, hc => by
    have hclean := (clean_cons.mp hc).2.2
    have plain := isText_of_kind kind (by simp) (by simp)
    have hinner := inner.spelt (clean_cons.mp hclean).2.2
    rw [call, Spelt]
    exact ⟨fits_name named (clean_cons.mp hc).1, spelt_tidy _ (spelt_merge_text plain hclean inner hinner)⟩

end

theorem Whole.spelt {limit : Nat} {implied : Bool} {bits : List Bit} {nodes : List Node} :
    Whole limit implied bits nodes → Clean (bits.map fragment) → SpeltAll (merge nodes)
  | .mixed sequence, hc => sequence.spelt hc
  | .sole named argued, hc => by
    rw [call, merge_rigid rfl, merge, SpeltAll, SpeltAll]
    exact ⟨argued.spelt named hc, trivial⟩

end Placeholder.Grammar
