import Placeholder.Proofs.Node.Formed

/-! # How deep tokens stand

A tree is within a limit if no token stands in the inputs of more others than that. Literals do not count, so tidying
a sequence changes nothing about it. -/

namespace Placeholder.Node

mutual

/-- Every token stands in the inputs of at most `limit` others, `depth` of them around the node. -/
def Within (limit depth : Nat) : Node → Prop
  | .literal _ => True
  | .token _ none _ => depth ≤ limit
  | .token _ (some parts) _ => depth ≤ limit ∧ WithinAll limit (depth + 1) parts
  | .input parts => WithinAll limit depth parts
termination_by structural node => node

/-- Every node of a sequence is within the limit. -/
def WithinAll (limit depth : Nat) : List Node → Prop
  | [] => True
  | node :: rest => Within limit depth node ∧ WithinAll limit depth rest
termination_by structural nodes => nodes

end

/-- A place is told by its depth. -/
def withinDecider (limit : Nat) : Decider (Within limit) (WithinAll limit) where
  inside depth := depth + 1
  literal _ _ := .isTrue trivial
  bare depth _ _ := inferInstanceAs (Decidable (depth ≤ limit))
  token depth _ parts _ := inferInstanceAs (Decidable (depth ≤ limit ∧ WithinAll limit (depth + 1) parts))
  input depth parts := inferInstanceAs (Decidable (WithinAll limit depth parts))
  nil _ := .isTrue trivial
  cons depth node rest := inferInstanceAs (Decidable (Within limit depth node ∧ WithinAll limit depth rest))

instance (limit depth : Nat) (nodes : List Node) : Decidable (WithinAll limit depth nodes) :=
  (withinDecider limit).all depth nodes

section Within
variable {limit depth : Nat} {nodes : List Node}

theorem withinAll_iff : WithinAll limit depth nodes ↔ ∀ node ∈ nodes, Within limit depth node :=
  all_iff_forall trivial (fun _ _ => Iff.rfl) nodes

theorem within_literal (text : String) : Within limit depth (.literal text) := by
  rw [Within]
  trivial

theorem within_token {name : String} {input : Option (List Node)} {implied : Bool} :
    Within limit depth (.token name input implied) ↔
      depth ≤ limit ∧ ∀ parts ∈ input, WithinAll limit (depth + 1) parts := by
  cases input <;> simp [Within]

/-- Only nodes that are no literals count. -/
theorem withinAll_filter : WithinAll limit depth (nodes.filter isRigid) ↔ WithinAll limit depth nodes := by
  simp only [withinAll_iff, List.mem_filter]
  refine ⟨fun h node hm => ?_, fun h node hm => h node hm.1⟩
  rcases isRigid_or_literal node with hr | ⟨text, rfl⟩
  · exact h node ⟨hm, hr⟩
  · exact within_literal text

theorem withinAll_tidy (rule : Rule) : WithinAll limit depth (tidy rule nodes) ↔ WithinAll limit depth nodes := by
  rw [← withinAll_filter, filter_tidy, withinAll_filter]

end Within

section Trees
variable {limit : Nat}

mutual

theorem WellFormed.within {depth : Nat} {implied : Bool} : (node : Node) → WellFormed limit depth implied node →
    Within limit depth node
  | .literal text, _ => within_literal text
  | .token name none own, h => by
    rw [WellFormed] at h
    rw [Within]
    exact h.within
  | .token name (some parts) own, h => by
    rw [WellFormed] at h
    rw [Within]
    exact ⟨h.1.within, WellFormedAll.within parts h.2.2⟩
  | .input parts, h => by
    rw [WellFormed] at h
    exact h.elim

theorem WellFormedAll.within {depth : Nat} {implied : Bool} : (nodes : List Node) →
    WellFormedAll limit depth implied nodes → WithinAll limit depth nodes
  | [], _ => by
    rw [WithinAll]
    trivial
  | node :: rest, h => by
    rw [WellFormedAll] at h
    rw [WithinAll]
    exact ⟨WellFormed.within node h.1, WellFormedAll.within rest h.2⟩

end

mutual

theorem Within.mono {more depth : Nat} (hl : limit ≤ more) : (node : Node) → Within limit depth node →
    Within more depth node
  | .literal text, _ => within_literal text
  | .token name none own, h => by
    rw [Within] at h ⊢
    exact h.trans hl
  | .token name (some parts) own, h => by
    rw [Within] at h ⊢
    exact ⟨h.1.trans hl, WithinAll.mono hl parts h.2⟩
  | .input parts, h => by
    rw [Within] at h ⊢
    exact WithinAll.mono hl parts h

theorem WithinAll.mono {more depth : Nat} (hl : limit ≤ more) : (nodes : List Node) → WithinAll limit depth nodes →
    WithinAll more depth nodes
  | [], _ => by
    rw [WithinAll]
    trivial
  | node :: rest, h => by
    rw [WithinAll] at h ⊢
    exact ⟨Within.mono hl node h.1, WithinAll.mono hl rest h.2⟩

end

end Trees

end Placeholder.Node
