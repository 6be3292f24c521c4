import Mathlib.Data.List.Infix
import Placeholder.Proofs.Stage.Faults

/-! # What the operations of a reader leave

A reader goes on after an operation that has failed, so what becomes of its queue does not depend on any of them
succeeding. Every operation eats a stretch from the front and changes nothing else. How much an operation eats is told
by counting markers: an input goes on for as long as no more tokens have been closed in it than opened, and a token in
braces ends where its own opening marker is matched. -/

namespace Placeholder

/-! ### Steps -/

namespace Reading
variable {limit stop : Nat} {after : List Bit}

theorem Eats.map {α β : Type} {step : Reading α} (h : Eats step) (f : α → β) : Eats (f <$> step) := by
  rw [← bind_pure_comp]
  exact h.bind fun a => Eats.pure (f a)

theorem braced_eats (stop : Nat) (nested : Nested) : Eats (braced stop nested) :=
  (expect_eats stop .opening).bind fun _ => (call_eats stop nested false).bind fun node =>
    (expect_eats stop .closing).bind fun _ => Eats.pure node

theorem token_eats (limit stop : Nat) (nested? : Option Nested) (implied : Bool) :
    Eats (token limit stop nested? implied) := by
  intro bits
  cases nested? with
  | none => exact List.suffix_rfl
  | some nested =>
    cases implied with
    | true => exact call_eats stop nested true bits
    | false => exact braced_eats stop nested bits

theorem left_consNode (node : Node) (result : EStateM.Result Fault (List Bit) (List Node)) :
    left (consNode node result) = left result := by
  cases result <;> rfl

theorem items_eats (limit stop : Nat) (nested? : Option Nested) : Eats (items limit stop nested?) := by
  intro bits
  induction bits using items.induct limit stop nested? with
  | case1 =>
    rw [Grammar.items_nil]
    exact List.suffix_rfl
  | case2 bit rest hk node after ht ih =>
    have hafter : after <:+ bit :: rest := by
      have heats := token_eats limit stop nested? false (bit :: rest)
      rwa [ht] at heats
    rw [Grammar.items_token hk ht, left_consNode]
    exact ih.trans hafter
  | case3 bit rest hk fault after ht =>
    have heats := token_eats limit stop nested? false (bit :: rest)
    rw [Grammar.items_token_error hk ht]
    rwa [ht] at heats
  | case4 bit rest hk =>
    rw [Grammar.items_closing hk]
    exact List.suffix_cons bit rest
  | case5 bit rest ho hc ih =>
    rw [Grammar.items_text ⟨ho, hc⟩, left_consNode]
    exact ih.trans (List.suffix_cons bit rest)

theorem sole_eats (limit depth stop : Nat) : Eats (sole limit depth stop) := by
  have hget : Eats (get : Reading (List Bit)) := fun _ => List.suffix_rfl
  refine (token_eats limit stop _ true).bind fun node => hget.bind fun queue => ?_
  cases queue with
  | nil => exact Eats.pure [node]
  | cons bit rest => exact Eats.throw _

theorem sequence_eats (limit depth stop : Nat) (rule : Node.Rule) (implied : Bool) :
    Eats (sequence limit depth stop rule implied) := by
  cases implied with
  | true => exact (sole_eats limit depth stop).map _
  | false => exact (items_eats limit stop _).map _

/-- A queue that can be read as a sequence is read to its end, at any depth. -/
theorem eq_nil_of_sequence {depth : Nat} {rule : Node.Rule} {implied : Bool} {bits : List Bit} {nodes : List Node}
    (h : sequence limit depth stop rule implied bits = .ok nodes after) : after = [] := by
  cases implied with
  | true =>
    obtain ⟨sequence, hs, -⟩ := Grammar.map_eq_ok_iff.mp h
    obtain ⟨node, mid, -, hrest⟩ := bind_eq_ok hs
    obtain ⟨queue, queueAfter, hg, hend⟩ := bind_eq_ok hrest
    cases hg
    cases mid with
    | nil =>
      cases hend
      rfl
    | cons bit rest => cases hend
  | false =>
    obtain ⟨sequence, hs, -⟩ := Grammar.map_eq_ok_iff.mp h
    exact (Grammar.sequence_of_items hs).1

end Reading

/-! ### Counting markers -/

namespace Grammar
open Reading Stage

/-- Bits that come while `depth` tokens are open: no front of them closes more tokens than have been opened. -/
def Guarded (depth : Nat) (bits : List Bit) : Prop :=
  ∀ front, front <+: bits → closings front ≤ openings front + depth

/-- A stretch from one opening marker to the closing marker that matches it. -/
structure Spans (bits : List Bit) : Prop where
  first : ∃ opening rest, bits = opening :: rest ∧ opening.kind = .opening
  last : ∃ front closing, bits = front ++ [closing] ∧ closing.kind = .closing
  matched : closings bits = openings bits
  open_within : ∀ front, front <+: bits → front ≠ [] → front ≠ bits → closings front < openings front

section Guarded
variable {depth next : Nat} {bit : Bit} {bits rest front : List Bit}

theorem guarded_nil (depth : Nat) : Guarded depth [] := by
  intro front hf
  rw [List.prefix_nil.mp hf]
  exact Nat.zero_le _

theorem guarded_cons (hnext : next + closings [bit] = depth + openings [bit]) :
    Guarded depth (bit :: rest) ↔ Guarded next rest := by
  constructor
  · intro h front hf
    have hcount := h (bit :: front) (List.cons_prefix_cons.mpr ⟨rfl, hf⟩)
    rw [closings_cons, openings_cons] at hcount
    omega
  · intro h front hf
    cases front with
    | nil => exact Nat.zero_le _
    | cons first front =>
      obtain ⟨rfl, hfront⟩ := List.cons_prefix_cons.mp hf
      have hcount := h front hfront
      rw [closings_cons, openings_cons]
      omega

theorem not_guarded_closing (hk : bit.kind = .closing) (rest : List Bit) : ¬Guarded 0 (bit :: rest) := by
  intro h
  have hcount := h [bit] (List.cons_prefix_cons.mpr ⟨rfl, List.nil_prefix⟩)
  simp [closings, openings, hk] at hcount

theorem guarded_enclosed (depth : Nat) (bits : List Bit) : Guarded depth (enclosed depth bits).1 := by
  induction bits generalizing depth with
  | nil => exact guarded_nil depth
  | cons bit rest ih =>
    rcases enclosed_cons depth bit with ⟨hk, rfl⟩ | ⟨next, hnext, he⟩
    · rw [enclosed_closing_zero hk]
      exact guarded_nil 0
    · rw [he]
      exact (guarded_cons hnext).mpr (ih next)

/-- The bits taken are the longest front of the queue that is guarded. -/
theorem isPrefix_enclosed (hf : front <+: bits) (h : Guarded depth front) : front <+: (enclosed depth bits).1 := by
  induction bits generalizing depth front with
  | nil =>
    rw [List.prefix_nil.mp hf]
    exact List.nil_prefix
  | cons bit rest ih =>
    cases front with
    | nil => exact List.nil_prefix
    | cons first front =>
      obtain ⟨rfl, hfront⟩ := List.cons_prefix_cons.mp hf
      rcases enclosed_cons depth first with ⟨hk, rfl⟩ | ⟨next, hnext, he⟩
      · exact absurd h (not_guarded_closing hk front)
      · rw [he, List.cons_prefix_cons]
        exact ⟨rfl, ih hfront ((guarded_cons hnext).mp h)⟩

end Guarded

section Spans
variable {limit depth : Nat} {bits : List Bit} {node : Node}

theorem Balanced.guarded (h : Balanced bits) : Guarded 0 bits := by
  have ends : Ends [] := nofun
  have henclosed := guarded_enclosed 0 (bits ++ [])
  rwa [h.enclosed_eq ends] at henclosed

theorem Balanced.closings_eq (h : Balanced bits) : closings bits = openings bits := by
  let closing : Bit := ⟨.closing, "\x7d\x7d", 0⟩
  have ends : Ends [closing] := by
    intro bit hb
    cases hb
    rfl
  have henclosed := h.enclosed_eq ends
  -- Counting stops at a marker that comes after the bits, so they have closed all that they opened.
  have hleft : (enclosed 0 (bits ++ [closing])).2 ≠ [] := by
    rw [henclosed]
    exact List.cons_ne_nil _ _
  have hcount := closings_enclosed hleft
  rwa [henclosed] at hcount

theorem Balanced.spans {opening closing : Bit} (h : Balanced bits) (ho : opening.kind = .opening)
    (hc : closing.kind = .closing) : Spans (opening :: (bits ++ [closing])) := by
  have hcount := h.closings_eq
  have hopening : openings [opening] = 1 ∧ closings [opening] = 0 := by simp [openings, closings, ho]
  refine ⟨⟨opening, _, rfl, ho⟩, ⟨opening :: bits, closing, rfl, hc⟩, ?_, ?_⟩
  · have hclosing : openings [closing] = 0 ∧ closings [closing] = 1 := by simp [openings, closings, hc]
    have happend : openings (bits ++ [closing]) = openings bits + openings [closing] ∧
        closings (bits ++ [closing]) = closings bits + closings [closing] := by simp [openings, closings]
    rw [openings_cons, closings_cons]
    omega
  · intro front hf hne hall
    cases front with
    | nil => exact absurd rfl hne
    | cons first front =>
      obtain ⟨rfl, hfront⟩ := List.cons_prefix_cons.mp hf
      have hinside : front <+: bits := by
        rcases List.prefix_concat_iff.mp hfront with he | hinside
        · exact absurd (congrArg (first :: ·) he) hall
        · exact hinside
      have hguarded := h.guarded front hinside
      rw [openings_cons, closings_cons]
      omega

theorem Token.spans (h : Token limit depth bits node) : Spans bits := by
  cases h with
  | braced _ opens named argued closes =>
    have hinner := argued.balanced.cons (isText_of_kind named.1 (by simp) (by simp))
    exact hinner.spans opens closes

end Spans

end Grammar

/-! ### Operations -/

namespace Reader
open Reading Grammar

/-- What can be done with a reader. -/
inductive Operation where
  | next
  | expect (kind : Bit.Kind)
  | token (implied : Bool)
  | arguments
  | sequence (rule : Node.Rule) (implied : Bool)
  deriving DecidableEq, Repr

/-- The reader as an operation leaves it, whether it has succeeded or not. -/
def after (reader : Reader) : Operation → Reader
  | .next => reader.next?.2
  | .expect kind => (reader.expect kind).2
  | .token implied => (reader.token implied).2
  | .arguments => reader.arguments.2
  | .sequence rule implied => (reader.sequence rule implied).2

/-- The reader after some operations in a row. -/
def afterAll (reader : Reader) (operations : List Operation) : Reader :=
  operations.foldl after reader

/-- The same reader with some bits gone from the front of its queue. -/
structure Eaten (reader later : Reader) : Prop where
  bits : later.bits <:+ reader.bits
  stop : later.stop = reader.stop
  limit : later.limit = reader.limit
  depth : later.depth = reader.depth

section Eaten
variable {reader mid later : Reader}

theorem Eaten.refl (reader : Reader) : Eaten reader reader :=
  ⟨List.suffix_rfl, rfl, rfl, rfl⟩

theorem Eaten.trans (h : Eaten reader mid) (hm : Eaten mid later) : Eaten reader later :=
  ⟨hm.bits.trans h.bits, hm.stop.trans h.stop, hm.limit.trans h.limit, hm.depth.trans h.depth⟩

theorem run_snd {α : Type} (reader : Reader) (step : Reading α) :
    (reader.run step).2 = { reader with bits := left (step reader.bits) } := by
  unfold run
  cases step reader.bits <;> rfl

theorem eaten_run {α : Type} {step : Reading α} (h : Eats step) (reader : Reader) :
    Eaten reader (reader.run step).2 := by
  rw [run_snd]
  exact ⟨h reader.bits, rfl, rfl, rfl⟩

theorem eaten_after (reader : Reader) (operation : Operation) : Eaten reader (reader.after operation) := by
  cases operation with
  | next => exact ⟨List.tail_suffix reader.bits, rfl, rfl, rfl⟩
  | expect kind => exact eaten_run (expect_eats _ kind) reader
  | token implied => exact eaten_run (token_eats _ _ _ implied) reader
  | arguments => exact eaten_run (arguments_eats _ _) reader
  | sequence rule implied => exact eaten_run (sequence_eats _ _ _ rule implied) reader

theorem eaten_afterAll (reader : Reader) (operations : List Operation) :
    Eaten reader (reader.afterAll operations) := by
  induction operations generalizing reader with
  | nil => exact Eaten.refl reader
  | cons operation operations ih => exact (eaten_after reader operation).trans (ih (reader.after operation))

end Eaten

/-! ### Readers of inputs -/

section Inputs
variable {α β : Type}

theorem answer_map (step : Reading α) (f : α → β) (bits : List Bit) :
    answer ((f <$> step) bits) = (answer (step bits)).map f := by
  rw [← bind_pure_comp]
  change answer (EStateM.bind step _ bits) = _
  unfold EStateM.bind
  cases step bits <;> rfl

theorem run_fst (reader : Reader) (step : Reading α) : (reader.run step).1 = answer (step reader.bits) := by
  unfold run
  cases step reader.bits <;> rfl

theorem sequence_fst (reader : Reader) (rule : Node.Rule) : (reader.sequence rule false).1 =
    (answer (items reader.limit reader.stop (level reader.limit reader.depth) reader.bits)).map (Node.tidy rule) := by
  rw [sequence, run_fst, Reading.sequence, answer_map]
  rfl

/-- An input is what a reader of its own makes of its bits, one level further in. -/
theorem arguments_eq_nested (reader : Reader) {inner rest : List Bit} (h : enclosed 0 reader.bits = (inner, rest)) :
    reader.arguments.1 =
      ((reader.nested inner (Reading.position reader.stop rest)).sequence ⟨true, true⟩ false).1 := by
  have hinner := inner_eq reader.limit reader.depth (Reading.position reader.stop rest) inner
  rw [sequence_fst, arguments, run_fst, Reading.arguments, h]
  dsimp only [nested]
  rw [← hinner]
  cases Reading.inner reader.limit (reader.limit - reader.depth) (Reading.position reader.stop rest) inner <;> rfl

end Inputs

/-! ### How much an operation eats -/

section Amount
variable {α : Type} {reader : Reader} {step : Reading α} {a : α} {fault : Fault}

theorem run_eq_ok (h : (reader.run step).1 = .ok a) : step reader.bits = .ok a (reader.run step).2.bits := by
  obtain ⟨rest, hs⟩ := run_fst_eq_ok_iff.mp h
  rw [run_snd, hs]
  rfl

theorem expect_of_error {kind : Bit.Kind} (h : (reader.expect kind).1 = .error fault) :
    (reader.expect kind).2 = reader := by
  obtain ⟨bits, stop, limit, depth⟩ := reader
  cases bits with
  | nil => rfl
  | cons bit rest =>
    by_cases hk : bit.kind = kind
    · simp [expect, run, Reading.expect, hk] at h
    · simp [expect, run, Reading.expect, hk]

theorem sequence_of_ok {rule : Node.Rule} {implied : Bool} {nodes : List Node}
    (h : (reader.sequence rule implied).1 = .ok nodes) : (reader.sequence rule implied).2.bits = [] :=
  eq_nil_of_sequence (run_eq_ok h)

theorem bits_arguments (reader : Reader) : reader.arguments.2.bits = (enclosed 0 reader.bits).2 := by
  rw [arguments, run_snd]
  unfold Reading.arguments
  dsimp only
  split <;> rfl

theorem token_of_ok {node : Node} (h : (reader.token false).1 = .ok node) :
    ∃ front, reader.bits = front ++ (reader.token false).2.bits ∧ Spans front := by
  obtain ⟨front, hbits, htoken⟩ := token_derives (fun queue _ => derives_inner _ _ queue) (run_eq_ok h)
  exact ⟨front, hbits, htoken.spans⟩

end Amount

/-- Whatever is done with a reader, and whether it succeeds or not, bits go from the front of its queue only, and its
    end, its limit and its depth stay. A bit that is not the expected one stays, too, and a sequence that can be read is
    read to its end. An input is the longest stretch in which no token is closed that has not been opened, read or not.
    A token in braces is eaten from its opening marker to the closing marker that matches it. -/
theorem operations_eat (bits : List Bit) (limit : Nat) (operations : List Operation) :
    let reader := (ofBits bits limit).afterAll operations
    Eaten (ofBits bits limit) reader ∧ (∀ operation, Eaten reader (reader.after operation)) ∧
    (∀ kind fault, (reader.expect kind).1 = .error fault → (reader.expect kind).2 = reader) ∧
    (∀ rule implied nodes, (reader.sequence rule implied).1 = .ok nodes →
      (reader.sequence rule implied).2.bits = []) ∧
    (∃ inner, reader.bits = inner ++ reader.arguments.2.bits ∧ Guarded 0 inner ∧
      (∀ front, front <+: reader.bits → Guarded 0 front → front <+: inner) ∧ Ends reader.arguments.2.bits) ∧
    (∀ node, (reader.token false).1 = .ok node →
      ∃ front, reader.bits = front ++ (reader.token false).2.bits ∧ Spans front) := by
  intro reader
  refine ⟨eaten_afterAll _ operations, eaten_after reader, fun _ _ => expect_of_error, fun _ _ _ => sequence_of_ok, ?_,
    fun _ => token_of_ok⟩
  rw [bits_arguments]
  exact ⟨(enclosed 0 reader.bits).1, (enclosed_append 0 reader.bits).symm, guarded_enclosed 0 reader.bits,
    fun front => isPrefix_enclosed, ends_enclosed 0 reader.bits⟩

/-- The token is eaten whole, with the one in its input, after an operation that failed and an input that ended. -/
theorem operations_eat_braced : ∃ reader : Reader,
    reader = (ofBits (Bit.scan "a\x7d\x7d{{B: {{C}} }}|d") 1).afterAll
      [.expect .closing, .arguments, .next] ∧
    (reader.token false).1 = .ok (.token "B" (some [.token "C" none false]) false) ∧
    ∃ front, reader.bits = front ++ (reader.token false).2.bits ∧ Spans front := by
  refine ⟨_, rfl, ?_⟩
  have hread : (((ofBits (Bit.scan "a\x7d\x7d{{B: {{C}} }}|d") 1).afterAll
      [.expect .closing, .arguments, .next]).token false).1 =
      .ok (.token "B" (some [.token "C" none false]) false) := by decide +kernel
  obtain ⟨-, -, -, -, -, htoken⟩ := operations_eat _ _ _
  exact ⟨hread, htoken _ hread⟩

end Reader

end Placeholder
