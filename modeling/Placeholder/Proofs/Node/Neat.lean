import Placeholder.Proofs.Node.Normal

/-! # Neat sequences

A sequence is neat if no two of its literals stand side by side and each of them, wherever it stands, has no white space
where its neighbours or the ends of the sequence forbid it. That is the same as being normal, which follows the sequence
from its start: every literal is judged by the node before it and the node after it. -/

namespace Placeholder.Node

/-- The literals of a sequence are as a rule wants them. -/
structure Neat (rule : Rule) (nodes : List Node) : Prop where
  apart : ∀ front s t back, nodes ≠ front ++ .literal s :: .literal t :: back
  beforeToken : rule.atTokens = true → ∀ front s name input implied back,
    nodes = front ++ .literal s :: .token name input implied :: back → Text.EndsClean s
  afterToken : rule.atTokens = true → ∀ front name input implied s back,
    nodes = front ++ .token name input implied :: .literal s :: back → Text.StartsClean s
  atStart : rule.atEnds = true → ∀ s back, nodes = .literal s :: back → Text.StartsClean s
  atEnd : rule.atEnds = true → ∀ front s, nodes = front ++ [.literal s] → Text.EndsClean s
  filled : rule.atEnds = true → .literal "" ∉ nodes

section Neat
variable {rule : Rule} {before : Option Node} {nodes : List Node}

/-- White space is cut off at an end if ends are trimmed, and at a node if that is a token and tokens are. -/
theorem cutsAt_iff {neighbour : Option Node} : rule.cutsAt neighbour = true ↔
    (neighbour = none ∧ rule.atEnds = true) ∨
      ((∃ name input implied, neighbour = some (.token name input implied)) ∧ rule.atTokens = true) := by
  cases neighbour with
  | none => simp [Rule.cutsAt]
  | some node => cases node <;> simp [Rule.cutsAt, isToken]

/-- In a normal sequence every literal is settled between the node before it and the node after it. -/
theorem normal_iff_settled : Normal rule before nodes ↔
    ∀ front s back, nodes = front ++ .literal s :: back → Settled rule (front.getLast?.or before) back.head? s := by
  induction nodes generalizing before with
  | nil => exact iff_of_true trivial fun front s back h => by simp at h
  | cons node rest ih =>
    have hbefore (front : List Node) : (node :: front).getLast?.or before = front.getLast?.or (some node) := by
      rw [List.getLast?_cons]
      cases front.getLast? <;> rfl
    have hrest : Normal rule (some node) rest ↔ ∀ front s back, node :: rest = node :: front ++ .literal s :: back →
        Settled rule ((node :: front).getLast?.or before) back.head? s := by
      simp only [ih, hbefore, List.cons_append, List.cons.injEq, true_and]
    constructor
    · intro h front s back hsplit
      cases front with
      | nil =>
        cases hsplit
        exact h.1
      | cons first front =>
        obtain rfl : node = first := (List.cons.inj hsplit).1
        refine hrest.mp ?_ front s back hsplit
        rcases isRigid_or_literal node with hn | ⟨text, rfl⟩
        · exact (normal_rigid hn rule before).mp h
        · exact h.2
    · intro h
      have htail := hrest.mpr fun front => h (node :: front)
      rcases isRigid_or_literal node with hn | ⟨text, rfl⟩
      · exact (normal_rigid hn rule before).mpr htail
      · exact ⟨h [] text rest rfl, htail⟩

theorem neat_of_normal (h : Normal rule none nodes) : Neat rule nodes := by
  have settled (front : List Node) (s : String) (back : List Node) (hsplit : nodes = front ++ .literal s :: back) :
      Settled rule front.getLast? back.head? s := by
    simpa using normal_iff_settled.mp h front s back hsplit
  refine ⟨?_, ?_, ?_, ?_, ?_, ?_⟩
  · intro front s t back hsplit
    exact (settled front s _ hsplit).alone t rfl
  · intro hrule front s name input implied back hsplit
    exact (settled front s _ hsplit).ends (cutsAt_iff.mpr (Or.inr ⟨⟨name, input, implied, rfl⟩, hrule⟩))
  · intro hrule front name input implied s back hsplit
    refine (settled (front ++ [.token name input implied]) s back (by simpa using hsplit)).starts ?_
    exact cutsAt_iff.mpr (Or.inr ⟨⟨name, input, implied, List.getLast?_concat⟩, hrule⟩)
  · intro hrule s back hsplit
    exact (settled [] s back hsplit).starts (cutsAt_iff.mpr (Or.inl ⟨rfl, hrule⟩))
  · intro hrule front s hsplit
    exact (settled front s [] hsplit).ends (cutsAt_iff.mpr (Or.inl ⟨rfl, hrule⟩))
  · intro hrule hempty
    obtain ⟨front, back, hsplit⟩ := List.append_of_mem hempty
    exact (settled front "" back hsplit).kept hrule rfl

theorem normal_of_neat (h : Neat rule nodes) : Normal rule none nodes := by
  rw [normal_iff_settled]
  intro front s back hsplit
  rw [Option.or_none]
  refine ⟨?_, ?_, ?_, ?_⟩
  · intro t ht
    obtain ⟨more, rfl⟩ := List.head?_eq_some_iff.mp ht
    exact h.apart front s t more hsplit
  · intro hcuts
    rcases cutsAt_iff.mp hcuts with ⟨hfront, hrule⟩ | ⟨⟨name, input, implied, htoken⟩, hrule⟩
    · obtain rfl := List.getLast?_eq_none_iff.mp hfront
      exact h.atStart hrule s back hsplit
    · obtain ⟨start, rfl⟩ := List.getLast?_eq_some_iff.mp htoken
      exact h.afterToken hrule start name input implied s back (by simpa using hsplit)
  · intro hcuts
    rcases cutsAt_iff.mp hcuts with ⟨hback, hrule⟩ | ⟨⟨name, input, implied, htoken⟩, hrule⟩
    · obtain rfl := List.head?_eq_none_iff.mp hback
      exact h.atEnd hrule front s hsplit
    · obtain ⟨more, rfl⟩ := List.head?_eq_some_iff.mp htoken
      exact h.beforeToken hrule front s name input implied more hsplit
  · rintro hrule rfl
    exact h.filled hrule (hsplit ▸ List.mem_append_right front List.mem_cons_self)

theorem neat_iff_normal : Neat rule nodes ↔ Normal rule none nodes :=
  ⟨normal_of_neat, neat_of_normal⟩

instance : Decidable (Neat rule nodes) :=
  decidable_of_iff (Normal rule none nodes) neat_iff_normal.symm

/-- Tidying makes every sequence neat, by way of its literals only, and leaves just the neat ones as they are. -/
theorem tidy_neat (rule : Rule) (nodes : List Node) :
    Neat rule (tidy rule nodes) ∧ (tidy rule nodes).filter isRigid = nodes.filter isRigid ∧
      (tidy rule nodes = nodes ↔ Neat rule nodes) := by
  have neat : Neat rule (tidy rule nodes) := neat_of_normal (normal_tidy rule nodes)
  refine ⟨neat, filter_tidy rule nodes, ?_, ?_⟩
  · intro h
    rwa [h] at neat
  · intro h
    exact tidy_of_normal (normal_of_neat h)

/-- White space before an input on its own, which is no token, stays where ends are not trimmed. -/
example : Neat ⟨true, false⟩ [.literal "a ", .input [], .literal "", .token "B" none false] := by decide

end Neat

end Placeholder.Node
