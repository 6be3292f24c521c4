import Placeholder.Proofs.Grammar.Acceptance
import Placeholder.Proofs.Grammar.Form

/-! # The levels of a tree

A tree is a sequence with further sequences in the inputs of its tokens. Whatever bits it has been read from, each of
these has the same form: names and braces are as the grammar has them, and the literals are tidy, since every input is
tidied on its own once it has been read. -/

namespace Placeholder
open Node Grammar

/-- The sequences in a tree, with the number of tokens around each: the tree itself, and the inputs of tokens in
    another of them. -/
inductive Node.Level (nodes : List Node) : Nat → List Node → Prop where
  | outermost : Level nodes 0 nodes
  | input {depth : Nat} {level parts : List Node} {name : String} {implied : Bool} (outer : Level nodes depth level)
      (called : .token name (some parts) implied ∈ level) : Level nodes (depth + 1) parts

section Levels
variable {limit depth : Nat} {implied trim : Bool} {bits : List Bit} {nodes level parts : List Node} {node : Node}

theorem Node.WellFormed.cases (h : WellFormed limit depth implied node) : (∃ text, node = .literal text) ∨
    ∃ name input, node = .token name input implied ∧ Proper limit depth implied name implied := by
  cases node with
  | literal text => exact Or.inl ⟨text, rfl⟩
  | token name input own =>
    have proper := h.proper
    obtain rfl := proper.braces
    exact Or.inr ⟨name, input, rfl, proper⟩
  | input parts =>
    rw [WellFormed] at h
    exact h.elim

theorem Node.WellFormedAll.input {name : String} {own : Bool} (h : WellFormedAll limit depth implied level)
    (called : .token name (some parts) own ∈ level) :
    WellFormedAll limit (depth + 1) false parts ∧ Normal ⟨true, true⟩ none parts := by
  have hnode := wellFormedAll_iff.mp h _ called
  rw [WellFormed] at hnode
  obtain ⟨-, normal, formed⟩ := hnode
  exact ⟨formed, normal⟩

/-- Being well formed passes from a tree to every level of it, where only the outermost may do without braces. -/
theorem Node.WellFormedAll.onLevel (h : WellFormedAll limit 0 implied nodes) (hl : Level nodes depth level) :
    WellFormedAll limit depth (implied && depth == 0) level ∧ (depth ≠ 0 → Normal ⟨true, true⟩ none level) := by
  induction hl with
  | outermost =>
    rw [beq_self_eq_true, Bool.and_true]
    exact ⟨h, fun hne => absurd rfl hne⟩
  | @input depth level parts name own outer called ih =>
    have hbraces : (implied && depth + 1 == 0) = false := by simp
    obtain ⟨formed, normal⟩ := ih.1.input called
    rw [hbraces]
    exact ⟨formed, fun _ => normal⟩

theorem Grammar.Whole.eq_token (h : Whole limit true bits nodes) : ∃ name input, nodes = [.token name input true] := by
  cases h with
  | sole named argued => exact ⟨_, _, rfl⟩

/-- Of a tree that has been read, every level consists of literals and of tokens with a trimmed name, in no more tokens
    than the limit allows, and it is tidy: no two literals side by side, no white space where one touches a token, and
    none at the ends of an input, nor at those of the whole if they are trimmed. Braces are implied for a single token
    that is all there is, and for no other. -/
theorem levels_of_sequence (h : ((Reader.ofBits bits limit).sequence ⟨true, trim⟩ implied).1 = .ok nodes) :
    (∀ depth level, Level nodes depth level →
      (∀ node ∈ level, (∃ text, node = .literal text) ∨ ∃ name input, node = .token name input (implied && depth == 0) ∧
        depth ≤ limit ∧ name ≠ "" ∧ Text.StartsClean name ∧ Text.EndsClean name) ∧
      Normal ⟨true, trim || depth != 0⟩ none level) ∧
    (implied = true → ∃ name input, nodes = [.token name input true]) := by
  obtain ⟨items, whole, rfl⟩ := (reader_sequence_eq_ok_iff rfl).mp h
  have formed : WellFormedAll limit 0 implied (tidy ⟨true, trim⟩ items) := whole.wellFormed.tidy _
  refine ⟨fun depth level hl => ⟨fun node hm => ?_, ?_⟩, fun hi => ?_⟩
  · rcases (wellFormedAll_iff.mp (formed.onLevel hl).1 node hm).cases with hliteral | ⟨name, input, rfl, proper⟩
    · exact Or.inl hliteral
    · obtain ⟨hstarts, hends⟩ := Text.clean_of_trim_eq proper.trimmed
      exact Or.inr ⟨name, input, rfl, proper.within, proper.named, hstarts, hends⟩
  · by_cases hd : depth = 0
    · subst hd
      cases hl
      simpa using normal_tidy ⟨true, trim⟩ items
    · have hrule : (trim || depth != 0) = true := by simp [hd]
      rw [hrule]
      exact (formed.onLevel hl).2 hd
  · subst hi
    obtain ⟨name, input, rfl⟩ := Whole.eq_token whole
    exact ⟨name, input, rfl⟩

/-- Also where the texts of bits do not look like their kinds: here the markers of the token in the input are empty. -/
theorem levels_of_sequence_nested :
    ((Reader.ofBits [⟨.literal, " a ", 0⟩, ⟨.opening, "<", 3⟩, ⟨.literal, " B ", 4⟩, ⟨.named, "|x ", 7⟩,
      ⟨.opening, "", 8⟩, ⟨.literal, "C", 8⟩, ⟨.closing, "", 9⟩, ⟨.literal, "\t", 9⟩, ⟨.closing, ">", 10⟩,
      ⟨.literal, "", 11⟩] 1).sequence ⟨true, true⟩ false).1 =
        .ok [.literal "a", .token "B" (some [.literal "|x", .token "C" none false]) false] ∧
    Level [.literal "a", .token "B" (some [.literal "|x", .token "C" none false]) false] 1
      [.literal "|x", .token "C" none false] ∧
    Normal ⟨true, true⟩ none [.literal "|x", .token "C" none false] := by
  have hread : ((Reader.ofBits [⟨.literal, " a ", 0⟩, ⟨.opening, "<", 3⟩, ⟨.literal, " B ", 4⟩, ⟨.named, "|x ", 7⟩,
      ⟨.opening, "", 8⟩, ⟨.literal, "C", 8⟩, ⟨.closing, "", 9⟩, ⟨.literal, "\t", 9⟩, ⟨.closing, ">", 10⟩,
      ⟨.literal, "", 11⟩] 1).sequence ⟨true, true⟩ false).1 =
      .ok [.literal "a", .token "B" (some [.literal "|x", .token "C" none false]) false] := by decide +kernel
  have hlevel : Level [.literal "a", .token "B" (some [.literal "|x", .token "C" none false]) false] 1
      [.literal "|x", .token "C" none false] := .input .outermost (List.mem_cons_of_mem _ List.mem_cons_self)
  exact ⟨hread, hlevel, ((levels_of_sequence hread).1 1 _ hlevel).2⟩

end Levels

end Placeholder
