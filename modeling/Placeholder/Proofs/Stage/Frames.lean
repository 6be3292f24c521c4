import Placeholder.Proofs.Accepted

/-! # Reading with a stack

Reading from left to right also gives the tree of a text, if the open tokens are kept on a stack, each with its name and
the nodes of its input so far. What is above a frame and below it does not depend on the nodes in it before they are
tidied, so that nodes which make no difference to that may be exchanged at any time. -/

namespace Placeholder
open Bit Node Grammar

/-- An open token as far as it has been read. At the bottom of a stack stands the text itself. -/
inductive Frame where
  /-- Only its opening marker. -/
  | opened
  /-- Its name. -/
  | named (name : String)
  /-- Its name and the nodes of its input so far. -/
  | filled (name : String) (parts : List Node)

namespace Frame

/-- The token that a frame makes, once it has a name. -/
def node? (implied : Bool) : Frame → Option Node
  | .opened => none
  | .named name => some (.token name none implied)
  | .filled name parts => some (.token name (some (tidy ⟨true, true⟩ parts)) implied)

/-- The nodes of a frame that has a place for them. -/
def parts? : Frame → Option (List Node)
  | .filled _ parts => some parts
  | _ => none

/-- The stack before the first bit. The nodes of a text that is no implied token are collected under no name. -/
def start (implied : Bool) : List Frame :=
  if implied then [.opened] else [.filled "" []]

/-- The stack after a closing marker, by the frame that it closes. -/
def shut (frame : Frame) : List Frame → Option (List Frame)
  | .filled name parts :: rest => (frame.node? false).map fun node => .filled name (parts ++ [node]) :: rest
  | _ => none

/-- The stack after a bit, if it can come next. -/
def step (limit : Nat) (implied : Bool) (frames : List Frame) (bit : Bit) : Option (List Frame) :=
  match frames with
  | [] => none
  | .opened :: rest =>
    if bit.kind = .literal ∧ Text.isBlank bit.text = false then some (.named (Text.trim bit.text) :: rest) else none
  | .named name :: rest =>
    match bit.kind with
    | .positional => some (.filled name [] :: rest)
    | .named => some (.filled name [.literal bit.text] :: rest)
    | .closing => shut (.named name) rest
    | _ => none
  | .filled name parts :: rest =>
    match bit.kind with
    | .opening =>
      if rest.length + implied.toNat ≤ limit then some (.opened :: .filled name parts :: rest) else none
    | .closing => shut (.filled name parts) rest
    | _ => some (.filled name (parts ++ [.literal bit.text]) :: rest)

/-- The stack after some bits in a row, if none of them has a fault. -/
def run (limit : Nat) (implied : Bool) (frames : List Frame) (bits : List Bit) : Option (List Frame) :=
  bits.foldlM (step limit implied) frames

/-- The nodes of a text, if nothing but the text is left on the stack. -/
def outcome (implied trim : Bool) : List Frame → Option (List Node)
  | [frame] => if implied then (frame.node? true).map fun node => [node] else frame.parts?.map (tidy ⟨true, trim⟩)
  | _ => none

/-- The nodes of some bits that are read from the start to the end. -/
def read (limit : Nat) (implied trim : Bool) (bits : List Bit) : Option (List Node) :=
  (run limit implied (start implied) bits).bind (outcome implied trim)

/-! ### Steps -/

section Run
variable {limit : Nat} {implied : Bool} {frames mid last rest : List Frame} {bit : Bit} {bits more : List Bit}
  {name : String} {parts : List Node}

theorem step_text (h : IsText bit) : step limit implied (.filled name parts :: rest) bit =
    some (.filled name (parts ++ [.literal bit.text]) :: rest) := by
  obtain ⟨ho, hc⟩ := h
  unfold step
  cases hk : bit.kind <;> simp_all

theorem step_name (h : IsName bit) : step limit implied (.opened :: rest) bit =
    some (.named (Text.trim bit.text) :: rest) := by
  simp [step, h.1, h.2]

theorem step_closing {frame : Frame} {node : Node} (hk : bit.kind = .closing) (hf : frame.node? false = some node) :
    step limit implied (frame :: .filled name parts :: rest) bit = some (.filled name (parts ++ [node]) :: rest) := by
  cases frame <;> simp_all [step, shut, node?]

@[simp] theorem run_nil : run limit implied frames [] = some frames := rfl

theorem run_cons : run limit implied frames (bit :: bits) =
    (step limit implied frames bit).bind fun mid => run limit implied mid bits := rfl

theorem run_append : run limit implied frames (bits ++ more) =
    (run limit implied frames bits).bind fun mid => run limit implied mid more := by
  simp [run]

theorem shut_eq_some {frame : Frame} (h : shut frame rest = some last) :
    ∃ inner node name parts others, frame :: rest = inner :: .filled name parts :: others ∧
      inner.node? false = some node ∧ last = .filled name (parts ++ [node]) :: others := by
  match rest with
  | [] => cases h
  | .opened :: others => cases h
  | .named name :: others => cases h
  | .filled name parts :: others =>
    obtain ⟨node, hn, rfl⟩ := Option.map_eq_some_iff.mp h
    exact ⟨frame, node, name, parts, others, rfl, hn, rfl⟩

/-- All that a bit can do to a stack. -/
theorem step_eq_some (h : step limit implied frames bit = some last) :
    (bit.kind = .opening ∧ ∃ name parts rest, frames = .filled name parts :: rest ∧
      rest.length + implied.toNat ≤ limit ∧ last = .opened :: frames) ∨
    (bit.kind = .closing ∧ ∃ frame node name parts rest, frames = frame :: .filled name parts :: rest ∧
      frame.node? false = some node ∧ last = .filled name (parts ++ [node]) :: rest) ∨
    (IsName bit ∧ ∃ rest, frames = .opened :: rest ∧ last = .named (Text.trim bit.text) :: rest) ∨
    (bit.kind = .positional ∧ ∃ name rest, frames = .named name :: rest ∧ last = .filled name [] :: rest) ∨
    (bit.kind = .named ∧ ∃ name rest, frames = .named name :: rest ∧
      last = .filled name [.literal bit.text] :: rest) ∨
    (IsText bit ∧ ∃ name parts rest, frames = .filled name parts :: rest ∧
      last = .filled name (parts ++ [.literal bit.text]) :: rest) := by
  unfold step at h
  split at h
  · cases h
  · next rest =>
    split at h
    · next hn =>
      cases h
      exact Or.inr (Or.inr (Or.inl ⟨hn, rest, rfl, rfl⟩))
    · cases h
  · next name rest =>
    split at h
    · next hk =>
      cases h
      exact Or.inr (Or.inr (Or.inr (Or.inl ⟨hk, name, rest, rfl, rfl⟩)))
    · next hk =>
      cases h
      exact Or.inr (Or.inr (Or.inr (Or.inr (Or.inl ⟨hk, name, rest, rfl, rfl⟩))))
    · next hk => exact Or.inr (Or.inl ⟨hk, shut_eq_some h⟩)
    · cases h
  · next name parts rest =>
    split at h
    · next hk =>
      split at h
      · next hl =>
        cases h
        exact Or.inl ⟨hk, name, parts, rest, rfl, hl, rfl⟩
      · cases h
    · next hk => exact Or.inr (Or.inl ⟨hk, shut_eq_some h⟩)
    · next ho hc =>
      cases h
      exact Or.inr (Or.inr (Or.inr (Or.inr (Or.inr ⟨⟨ho, hc⟩, name, parts, rest, rfl, rfl⟩))))

/-- Where bits lie does not matter. -/
theorem run_congr {others : List Bit} (h : bits.map fragment = others.map fragment) :
    run limit implied frames bits = run limit implied frames others := by
  induction bits generalizing frames others with
  | nil => rw [List.map_eq_nil_iff.mp h.symm]
  | cons bit bits ih =>
    obtain ⟨other, more, rfl, ho, hm⟩ := List.map_eq_cons_iff.mp h.symm
    obtain ⟨hkind, htext⟩ : other.kind = bit.kind ∧ other.text = bit.text := fragment_eq_iff.mp ho
    have hstep : step limit implied frames other = step limit implied frames bit := by
      simp only [step, hkind, htext]
    rw [run_cons, run_cons, hstep]
    exact Option.bind_congr fun mid _ => ih hm.symm

end Run

end Frame

/-! ### What is derived is read -/

namespace Grammar
open Placeholder.Frame (run_cons run_append run_nil step_text step_name step_closing)
variable {limit : Nat} {implied : Bool}

mutual

theorem Sequence.frames_eq {depth : Nat} {bits : List Bit} {nodes parts : List Node} {name : String}
    {rest : List Frame} (hd : rest.length + implied.toNat = depth) : Sequence limit depth bits nodes →
      Frame.run limit implied (.filled name parts :: rest) bits = some (.filled name (parts ++ nodes) :: rest)
  | .nil => by simp
  | .text plain others => by
    rw [run_cons, step_text plain, Option.bind_some, others.frames_eq hd, List.append_assoc, List.singleton_append]
  | .token first others => by
    rw [run_append, first.frames_eq hd, Option.bind_some, others.frames_eq hd, List.append_assoc, List.singleton_append]

theorem Token.frames_eq {depth : Nat} {bits : List Bit} {node : Node} {name : String} {parts : List Node}
    {rest : List Frame} (hd : rest.length + implied.toNat = depth) : Token limit depth bits node →
      Frame.run limit implied (.filled name parts :: rest) bits = some (.filled name (parts ++ [node]) :: rest)
  | @Token.braced _ _ opening word closing _ _ fits opens named argued closes => by
    have hrest : (Frame.filled name parts :: rest).length + implied.toNat = depth + 1 := by
      rw [List.length_cons]
      omega
    obtain ⟨frame, hr, hnode⟩ := argued.frames_eq _ hrest
    have hopen : Frame.step limit implied (.filled name parts :: rest) opening =
        some (.opened :: .filled name parts :: rest) := by
      simp [Frame.step, opens, hd, fits]
    rw [run_cons, hopen, Option.bind_some, run_cons, step_name named, Option.bind_some, run_append, hr,
      Option.bind_some, run_cons, step_closing closes (hnode false), Option.bind_some, run_nil]
    rfl

theorem Input.frames_eq {depth : Nat} {bits : List Bit} {input : Option (List Node)} (name : String)
    {rest : List Frame} (hd : rest.length + implied.toNat = depth + 1) : Input limit depth bits input →
      ∃ frame, Frame.run limit implied (.named name :: rest) bits = some (frame :: rest) ∧
        ∀ own, frame.node? own = some (.token name input own)
  | .none => ⟨.named name, rfl, fun _ => rfl⟩
  | @Input.positional _ _ bit _ nodes kind inner => by
    refine ⟨.filled name nodes, ?_, fun _ => rfl⟩
    have hstep : Frame.step limit implied (.named name :: rest) bit = some (.filled name [] :: rest) := by
      simp [Frame.step, kind]
    rw [run_cons, hstep, Option.bind_some, inner.frames_eq hd, List.nil_append]
  | @Input.named _ _ bit _ nodes kind inner => by
    refine ⟨.filled name (.literal bit.text :: nodes), ?_, fun _ => rfl⟩
    have hstep : Frame.step limit implied (.named name :: rest) bit =
        some (.filled name [.literal bit.text] :: rest) := by
      simp [Frame.step, kind]
    rw [run_cons, hstep, Option.bind_some, inner.frames_eq hd, List.singleton_append]

end

theorem Whole.read_eq {trim : Bool} {bits : List Bit} {items : List Node} :
    Whole limit implied bits items → Frame.read limit implied trim bits = some (tidy ⟨true, trim⟩ items)
  | .mixed sequence => by
    have hr : Frame.run limit false [.filled "" []] bits = some [.filled "" ([] ++ items)] := sequence.frames_eq rfl
    rw [Frame.read]
    show (Frame.run limit false [.filled "" []] bits).bind _ = _
    rw [hr]
    rfl
  | @Whole.sole _ word rest _ named argued => by
    have hone : ([] : List Frame).length + true.toNat = 0 + 1 := rfl
    obtain ⟨frame, hr, hnode⟩ := argued.frames_eq (Text.trim word.text) hone
    rw [Frame.read]
    show (Frame.run limit true [.opened] (word :: rest)).bind _ = _
    rw [run_cons, step_name named, Option.bind_some, hr]
    simp [Frame.outcome, hnode, call, tidy_token]

end Grammar

/-! ### What is read is accepted -/

namespace Frame

/-- What may come next after a frame. -/
def phase : Frame → Stage.Phase
  | .opened => .name
  | .named _ => .input
  | .filled _ _ => .content

/-- The stage of a reading with this stack. -/
def stage (implied : Bool) : List Frame → Stage
  | [] => Stage.start implied
  | frame :: rest => ⟨rest.length + implied.toNat, frame.phase⟩

section Stage
variable {limit : Nat} {implied trim : Bool} {frames last : List Frame} {bit : Bit} {bits : List Bit}
  {nodes : List Node}

theorem stage_start (implied : Bool) : stage implied (start implied) = Stage.start implied := by
  cases implied <;> rfl

theorem phase_of_node {frame : Frame} {own : Bool} {node : Node} (h : frame.node? own = some node) :
    frame.phase ≠ .name := by
  cases frame with
  | opened => cases h
  | named | filled => simp [phase]

theorem stage_step (h : step limit implied frames bit = some last) :
    (stage implied frames).next limit implied bit = .ok (stage implied last) := by
  rcases step_eq_some h with ⟨hk, name, parts, rest, rfl, hl, rfl⟩ |
    ⟨hk, frame, node, name, parts, rest, rfl, hn, rfl⟩ | ⟨named, rest, rfl, rfl⟩ |
    ⟨hk, name, rest, rfl, rfl⟩ | ⟨hk, name, rest, rfl, rfl⟩ | ⟨plain, name, parts, rest, rfl, rfl⟩
  · rw [Stage.next_opening rfl hk hl]
    simp [stage, phase]
    omega
  · rw [Stage.next_closing (phase_of_node hn) hk, Stage.leave, if_pos (by simp [stage])]
    simp [stage, phase]
  · exact Stage.next_name rfl named
  · exact Stage.next_separator rfl (Or.inl hk)
  · exact Stage.next_separator rfl (Or.inr hk)
  · exact Stage.next_content rfl plain

theorem stage_run (h : run limit implied frames bits = some last) :
    Stage.run limit implied (stage implied frames) bits = .ok (stage implied last) := by
  induction bits generalizing frames with
  | nil =>
    cases h
    rfl
  | cons bit bits ih =>
    obtain ⟨mid, hs, hr⟩ := Option.bind_eq_some_iff.mp h
    rw [Stage.run_cons (stage_step hs)]
    exact ih hr

theorem fault?_of_read {stop : Nat} (h : read limit implied trim bits = some nodes) :
    Stage.fault? limit implied stop bits = none := by
  obtain ⟨last, hr, ho⟩ := Option.bind_eq_some_iff.mp h
  have hrun := stage_run hr
  rw [stage_start] at hrun
  rw [Stage.fault?, hrun]
  refine Stage.early?_eq_none_iff.mpr ?_
  rcases last with _ | ⟨frame, _ | ⟨next, rest⟩⟩
  · cases ho
  · refine ⟨?_, by simp [stage]⟩
    cases frame with
    | opened => cases implied <;> cases ho
    | named | filled => simp [stage, phase]
  · cases ho

end Stage

end Frame

/-- A text is accepted if it can be read with a stack, and its nodes are those that this gives. -/
theorem parse_eq_ok_iff_read {text : String} {implied trim : Bool} {limit : Nat} {nodes : List Node} :
    parse text implied trim limit = .ok nodes ↔ Frame.read limit implied trim (scan text) = some nodes := by
  have read_of_parse {nodes : List Node} (h : parse text implied trim limit = .ok nodes) :
      Frame.read limit implied trim (scan text) = some nodes := by
    obtain ⟨items, whole, rfl⟩ := parse_eq_ok_iff.mp h
    exact whole.read_eq
  -- A text that is not accepted shows a fault, and then no stack can be read to the end.
  refine ⟨read_of_parse, fun h => ?_⟩
  cases hp : parse text implied trim limit with
  | ok others =>
    have hsame := (read_of_parse hp).symm.trans h
    rw [Option.some.inj hsame]
  | error error =>
    obtain ⟨fault, hf, -⟩ := parse_eq_error_iff.mp hp
    rw [Frame.fault?_of_read h] at hf
    cases hf

end Placeholder
