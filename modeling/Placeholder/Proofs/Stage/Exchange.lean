import Placeholder.Proofs.Node.Blank
import Placeholder.Proofs.Stage.Frames

/-! # Nodes that may be exchanged

Of the nodes in a frame a reading shows only the tidy form, and that once more nodes have come after them. Nodes that
give the same tidy form, whatever comes, may be exchanged in a stack: a bit keeps two such stacks alike, so that any bits
do, and in the end they have the same outcome. -/

namespace Placeholder.Frame
open Bit Node Grammar

/-- The rule for the nodes of a frame, by the frames below it. -/
def rule (implied trim : Bool) (below : List Frame) : Rule :=
  ⟨true, trim || implied || !below.isEmpty⟩

/-- Nodes with the same tidy form whatever comes after them. -/
def Alike (rule : Rule) (xs ys : List Node) : Prop :=
  ∀ more, (∀ s, more.head? = some (.literal s) → rule.MayDrop s) → tidy rule (xs ++ more) = tidy rule (ys ++ more)

/-- Nodes with the same tidy form where white space is cut off after them. -/
def AlikeBefore (rule : Rule) (xs ys : List Node) : Prop :=
  ∀ more, rule.cutsAt more.head? = true → tidy rule (xs ++ more) = tidy rule (ys ++ more)

section Alike
variable {rule : Rule} {xs ys : List Node}

theorem Alike.before (h : Alike rule xs ys) : AlikeBefore rule xs ys :=
  fun more hcut => h more fun s hs => (head_ne_literal_of_cutsAt hcut s hs).elim

theorem Alike.append_literal (h : Alike rule xs ys) {s : String} (hs : rule.MayDrop s) :
    Alike rule (xs ++ [.literal s]) (ys ++ [.literal s]) := by
  intro more _
  rw [List.append_assoc, List.append_assoc]
  exact h _ (by simpa using hs)

theorem AlikeBefore.append_token (h : AlikeBefore rule xs ys) (ha : rule.atTokens = true) {node : Node}
    (hn : node.isToken = true) : Alike rule (xs ++ [node]) (ys ++ [node]) := by
  intro more _
  rw [List.append_assoc, List.append_assoc]
  exact h _ (by simp [Rule.cutsAt, ha, hn])

theorem AlikeBefore.tidy_eq (h : AlikeBefore rule xs ys) (ha : rule.atEnds = true) : tidy rule xs = tidy rule ys := by
  simpa using h [] ha

end Alike

/-! ### One frame -/

section Exchange
variable {implied trim : Bool} {rest : List Frame} {name : String} {xs ys : List Node}

theorem isToken_of_node {frame : Frame} {node : Node} (h : frame.node? false = some node) : node.isToken = true := by
  cases frame with
  | opened => cases h
  | named | filled =>
    cases h
    rfl

theorem outcome_exchange (h : tidy (rule implied trim rest) xs = tidy (rule implied trim rest) ys) :
    outcome implied trim (.filled name xs :: rest) = outcome implied trim (.filled name ys :: rest) := by
  cases rest with
  | nil => cases implied <;> simp_all [outcome, node?, parts?, rule]
  | cons frame rest => rfl

theorem shut_exchange (hb : AlikeBefore (rule implied trim rest) xs ys) :
    shut (.filled name xs) rest = shut (.filled name ys) rest := by
  cases rest with
  | nil => rfl
  | cons frame rest =>
    have hrule : rule implied trim (frame :: rest) = ⟨true, true⟩ := by simp [rule]
    rw [hrule] at hb
    have htidy := hb.tidy_eq rfl
    cases frame <;> simp [shut, node?, htidy]

/-- A bit changes the uppermost frame, puts one above it, closes it, or cannot come next. -/
theorem step_shape (limit : Nat) (implied : Bool) (frame : Frame) (bit : Bit) :
    (∃ next, ∀ rest, step limit implied (frame :: rest) bit = some (next :: rest)) ∨
    (∀ rest, step limit implied (frame :: rest) bit =
      if rest.length + implied.toNat ≤ limit then some (.opened :: frame :: rest) else none) ∨
    (∀ rest, step limit implied (frame :: rest) bit = shut frame rest) ∨
    ∀ rest, step limit implied (frame :: rest) bit = none := by
  cases frame with
  | opened =>
    by_cases named : IsName bit
    · exact Or.inl ⟨_, fun rest => step_name named⟩
    · exact Or.inr (Or.inr (Or.inr fun rest => if_neg named))
  | named name =>
    cases hk : bit.kind with
    | positional => exact Or.inl ⟨.filled name [], fun rest => by simp [step, hk]⟩
    | named => exact Or.inl ⟨.filled name [.literal bit.text], fun rest => by simp [step, hk]⟩
    | closing => exact Or.inr (Or.inr (Or.inl fun rest => by simp [step, hk]))
    | literal | opening => exact Or.inr (Or.inr (Or.inr fun rest => by simp [step, hk]))
  | filled name parts =>
    rcases kind_cases bit with hk | hk | plain
    · exact Or.inr (Or.inl fun rest => by simp [step, hk])
    · exact Or.inr (Or.inr (Or.inl fun rest => by simp [step, hk]))
    · exact Or.inl ⟨_, fun rest => step_text plain⟩

end Exchange

/-! ### Stacks that differ in one frame -/

/-- Two stacks that differ at most in the nodes of one frame. These are alike, or at least before a token if there is a
    frame above them. -/
inductive Twins (implied trim : Bool) : List Frame → List Frame → Prop where
  | same (frames : List Frame) : Twins implied trim frames frames
  | top {name : String} {xs ys : List Node} {rest : List Frame} (alike : Alike (rule implied trim rest) xs ys) :
      Twins implied trim (.filled name xs :: rest) (.filled name ys :: rest)
  | below (frame : Frame) (above : List Frame) {name : String} {xs ys : List Node} {rest : List Frame}
      (alike : AlikeBefore (rule implied trim rest) xs ys) :
      Twins implied trim (frame :: (above ++ .filled name xs :: rest)) (frame :: (above ++ .filled name ys :: rest))

section Twins
variable {limit : Nat} {implied trim : Bool} {frames others rest : List Frame} {name : String} {xs ys : List Node}
  {bit : Bit} {bits : List Bit}

theorem twins_of_eq {first second : Option (List Frame)} (h : first = second) :
    Option.Rel (Twins implied trim) first second := by
  subst h
  cases first with
  | none => exact .none
  | some frames => exact .some (.same frames)

/-- A token that is closed falls to the frame below it. -/
theorem shut_twins (frame : Frame) (above : List Frame)
    (h : AlikeBefore (rule implied trim rest) xs ys) :
    Option.Rel (Twins implied trim) (shut frame (above ++ .filled name xs :: rest))
      (shut frame (above ++ .filled name ys :: rest)) := by
  cases hn : frame.node? false with
  | none => rcases above with _ | ⟨_ | _ | _, above⟩ <;> simp [shut, hn]
  | some node =>
    rcases above with _ | ⟨_ | _ | ⟨inner, parts⟩, above⟩
    · simp only [List.nil_append, shut, hn, Option.map_some]
      exact .some (.top (h.append_token rfl (isToken_of_node hn)))
    · exact .none
    · exact .none
    · simp only [List.cons_append, shut, hn, Option.map_some]
      exact .some (.below (.filled inner (parts ++ [node])) above h)

theorem step_twins (h : Twins implied trim frames others) (hbit : bit.text ≠ "") :
    Option.Rel (Twins implied trim) (step limit implied frames bit) (step limit implied others bit) := by
  cases h with
  | same frames => exact twins_of_eq rfl
  | @top name xs ys rest alike =>
    rcases kind_cases bit with hk | hk | plain
    · simp only [step, hk]
      split
      · exact .some (.below .opened [] alike.before)
      · exact .none
    · simp only [step, hk]
      exact twins_of_eq (shut_exchange alike.before)
    · rw [step_text plain, step_text plain]
      exact .some (.top (alike.append_literal (Or.inr hbit)))
  | @below frame above name xs ys rest alike =>
    rcases step_shape limit implied frame bit with ⟨next, hs⟩ | hs | hs | hs
    · rw [hs, hs]
      exact .some (.below next above alike)
    · have hlength : (above ++ .filled name xs :: rest).length = (above ++ .filled name ys :: rest).length := by simp
      rw [hs, hs, hlength]
      split
      · exact .some (.below .opened (frame :: above) alike)
      · exact .none
    · rw [hs, hs]
      exact shut_twins frame above alike
    · rw [hs, hs]
      exact .none

theorem run_twins (h : Twins implied trim frames others) (hbits : ∀ bit ∈ bits, bit.text ≠ "") :
    Option.Rel (Twins implied trim) (run limit implied frames bits) (run limit implied others bits) := by
  induction bits generalizing frames others with
  | nil => exact .some h
  | cons bit bits ih =>
    rw [List.forall_mem_cons] at hbits
    rw [run_cons, run_cons]
    have hstep : Option.Rel (Twins implied trim) (step limit implied frames bit) (step limit implied others bit) :=
      step_twins h hbits.1
    generalize step limit implied frames bit = first, step limit implied others bit = second at hstep ⊢
    cases hstep with
    | none => exact .none
    | some later => exact ih later hbits.2

theorem outcome_twins (h : Twins implied trim frames others) :
    outcome implied trim frames = outcome implied trim others := by
  cases h with
  | same frames => rfl
  | top alike => exact outcome_exchange (by simpa using alike [] (by simp))
  | below frame above alike => cases above <;> rfl

/-- Twins have the same outcome, whatever is read on. -/
theorem outcome_run_twins (h : Twins implied trim frames others) (hbits : ∀ bit ∈ bits, bit.text ≠ "") :
    (run limit implied frames bits).bind (outcome implied trim) =
      (run limit implied others bits).bind (outcome implied trim) := by
  have hrun : Option.Rel (Twins implied trim) (run limit implied frames bits) (run limit implied others bits) :=
    run_twins h hbits
  generalize run limit implied frames bits = first, run limit implied others bits = second at hrun ⊢
  cases hrun with
  | none => rfl
  | some later => exact outcome_twins later

/-- Where the uppermost frame is to be closed, or a token is to follow, the nodes before that are enough. -/
theorem outcome_run_before (hbits : ∀ bit ∈ bits, bit.text ≠ "")
    (hnext : (∃ bit ∈ bits.head?, bit.kind = .opening ∨ bit.kind = .closing) ∨
      bits = [] ∧ (rule implied trim rest).atEnds = true) (hbefore : AlikeBefore (rule implied trim rest) xs ys) :
    (run limit implied (.filled name xs :: rest) bits).bind (outcome implied trim) =
      (run limit implied (.filled name ys :: rest) bits).bind (outcome implied trim) := by
  rcases hnext with ⟨bit, hb, hk⟩ | ⟨rfl, ha⟩
  · obtain ⟨bits, rfl⟩ := List.head?_eq_some_iff.mp hb
    rw [run_cons, run_cons]
    rcases hk with hk | hk <;> simp only [step, hk]
    · split
      · exact outcome_run_twins (.below .opened [] hbefore) (List.forall_mem_cons.mp hbits).2
      · rfl
    · rw [shut_exchange hbefore]
  · exact outcome_exchange (hbefore.tidy_eq ha)

end Twins

end Placeholder.Frame
