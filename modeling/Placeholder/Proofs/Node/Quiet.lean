import Placeholder.Proofs.Grammar.Signs
import Placeholder.Proofs.Node.Formed

/-! # Trees without lone braces

Where every brace of a tree is in a marker of one of its tokens, no text in it has a brace that could run into a marker:
the tree is apart, whatever stands next to what, and its literals may be put together. -/

namespace Placeholder.Node
open Bit Grammar

/-- No sign is a single brace. -/
def Quiet (signs : List (List Char)) : Prop :=
  ∀ c, [c] ∉ signs

section Signs
variable {f : Fragment} {cs : List Char} {front back content : List (List Char)}

theorem quiet_append : Quiet (front ++ back) ↔ Quiet front ∧ Quiet back := by
  simp only [Quiet, List.mem_append, not_or, forall_and]

theorem quiet_flatMap {α : Type} {tell : α → List (List Char)} {xs : List α} :
    Quiet (xs.flatMap tell) ↔ ∀ x ∈ xs, Quiet (tell x) := by
  induction xs with
  | nil => simp [Quiet]
  | cons x xs ih => rw [List.flatMap_cons, quiet_append, ih, List.forall_mem_cons]

theorem quiet_lone : Quiet (lone cs) ↔ ∀ c ∈ cs, isBrace c = false := by
  simp [Quiet, lone]

theorem quiet_wrap (implied : Bool) : Quiet (wrap implied content) ↔ Quiet content := by
  cases implied <;> simp [Quiet, wrap, Kind.marker]

/-- Only a literal could have a single brace. -/
theorem quiet_signs (hf : Fits f) (hl : f.1 = .literal → ∀ c ∈ f.2, isBrace c = false) : Quiet (signs f) := by
  obtain ⟨kind, cs⟩ := f
  cases kind with
  | literal => exact quiet_lone.mpr (hl rfl)
  | opening | closing | positional | named =>
    obtain rfl : cs = Kind.marker _ := hf
    simp [Quiet, signs, lone, isBrace, Kind.marker]

theorem unpaired_of_quiet (h : Quiet (lone cs)) : Unpaired cs := by
  rw [quiet_lone] at h
  have absent {c : Char} (hc : isBrace c = true) : ¬[c, c] <:+: cs := by
    intro hi
    rw [h c (hi.subset List.mem_cons_self)] at hc
    cases hc
  exact ⟨absent rfl, absent rfl⟩

theorem getLast?_ne_of_quiet {c : Char} (h : Quiet (lone cs)) (hc : isBrace c = true) : cs.getLast? ≠ some c := by
  intro hl
  rw [quiet_lone.mp h c (List.mem_of_getLast? hl)] at hc
  cases hc

end Signs

section Nodes
variable {node : Node} {nodes : List Node}

theorem quiet_all : Quiet (nodeSignsAll nodes) ↔ ∀ node ∈ nodes, Quiet (nodeSigns node) := by
  rw [nodeSignsAll_eq, quiet_flatMap]

theorem not_endsIn_of_quiet {c : Char} (h : Quiet (nodeSigns node)) (hc : isBrace c = true) : ¬node.endsIn c := by
  cases node with
  | literal text =>
    rw [nodeSigns] at h
    exact getLast?_ne_of_quiet h hc
  | token | input => exact id

mutual

theorem apart_of_quiet : (node : Node) → Quiet (nodeSigns node) → Apart node
  | .literal _, _ => by
    rw [Apart]
    trivial
  | .token name none implied, h => by
    rw [nodeSigns, quiet_wrap] at h
    rw [Apart]
    exact fun _ => getLast?_ne_of_quiet h rfl
  | .token name (some parts) implied, h => by
    rw [nodeSigns, quiet_wrap, quiet_append] at h
    rw [Apart]
    exact ⟨apartAll_of_quiet parts h.2, fun _ last hl =>
      not_endsIn_of_quiet (quiet_all.mp h.2 last (List.mem_of_getLast? hl)) rfl⟩
  | .input parts, h => by
    rw [nodeSigns] at h
    rw [Apart]
    exact apartAll_of_quiet parts h

theorem apartAll_of_quiet : (nodes : List Node) → Quiet (nodeSignsAll nodes) → ApartAll nodes
  | [], _ => by
    rw [ApartAll]
    trivial
  | node :: rest, h => by
    rw [nodeSignsAll, quiet_append] at h
    rw [ApartAll]
    exact ⟨apart_of_quiet node h.1, fun he => absurd he (not_endsIn_of_quiet h.1 rfl), apartAll_of_quiet rest h.2⟩

end

/-- Literals without braces make no marker when they are put together. -/
theorem spelt_merge_of_quiet (hs : SpeltAll nodes) (hq : Quiet (nodeSignsAll nodes)) : SpeltAll (merge nodes) := by
  induction nodes with
  | nil => exact hs
  | cons node rest ih =>
    have hmerged : Quiet (nodeSignsAll (merge (node :: rest))) := by rwa [nodeSignsAll_merge]
    rw [nodeSignsAll, quiet_append] at hq
    rw [SpeltAll] at hs
    have hrest := ih hs.2 hq.2
    rcases isRigid_or_literal node with hn | ⟨text, rfl⟩
    · rw [merge_rigid hn, SpeltAll]
      exact ⟨hs.1, hrest⟩
    · rw [Spelt] at hs
      rcases merge_literal_cases text rest with ⟨more, others, hr, hm⟩ | ⟨-, hm⟩
      · rw [hm, nodeSignsAll, nodeSigns, quiet_append] at hmerged
        rw [hr, SpeltAll] at hrest
        rw [hm, SpeltAll, Spelt]
        refine ⟨⟨?_, unpaired_of_quiet hmerged.1⟩, hrest.2⟩
        rw [Ne, String.append_eq_empty_iff]
        exact fun he => hs.1.1 he.1
      · rw [hm, SpeltAll, Spelt]
        exact ⟨hs.1, hrest⟩

end Nodes

end Placeholder.Node
