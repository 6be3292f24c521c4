import Placeholder.Proofs.Grammar.Derivation

/-! # Reading from left to right

A text can be read one bit after another, without looking ahead: all there is to know of the bits before is how many
tokens are open and what may come next. A bit that cannot come next is a fault, and so is the end while a token is
open. This file holds the stages of such a reading, how many tokens are open at each, and how a reading is brought
to an end from any of them. -/

namespace Placeholder

/-- What may come next. -/
inductive Stage.Phase where
  /-- Text, a token, or the end of the token that is open. -/
  | content
  /-- The name of a token that has just been opened. -/
  | name
  /-- A separator, or the end of the token just named. -/
  | input
  deriving DecidableEq, Repr

/-- Where a reading stands. -/
structure Stage where
  /-- How many tokens are open, an implied one included. -/
  depth : Nat
  phase : Stage.Phase
  deriving DecidableEq, Repr

namespace Stage

/-- The stage before any bit. An implied token is open from the start and has no name yet. -/
def start (implied : Bool) : Stage :=
  if implied then ⟨1, .name⟩ else ⟨0, .content⟩

/-- The fault of a bit that comes when nothing is left open that it could belong to. -/
def excess (implied : Bool) (bit : Bit) : Fault :=
  ⟨if implied then .trailing bit.kind bit.text else .stray bit.kind bit.text, bit.position⟩

/-- The stage after a closing marker. An implied token is not closed by one. -/
def leave (implied : Bool) (stage : Stage) (bit : Bit) : Except Fault Stage :=
  if implied.toNat < stage.depth then .ok ⟨stage.depth - 1, .content⟩ else .error (excess implied bit)

/-- The stage after a bit, or the fault that the bit is. -/
def next (limit : Nat) (implied : Bool) (stage : Stage) (bit : Bit) : Except Fault Stage :=
  match stage.phase, bit.kind with
  | .content, .opening =>
    if stage.depth ≤ limit then .ok ⟨stage.depth + 1, .name⟩ else .error ⟨.tooDeep limit, bit.position⟩
  | .content, .closing => leave implied stage bit
  | .content, _ => .ok stage
  | .name, .literal =>
    if Text.isBlank bit.text then .error ⟨.blankName bit.text, bit.position⟩ else .ok ⟨stage.depth, .input⟩
  | .name, kind => .error ⟨.mismatch .literal (some kind) bit.text, bit.position⟩
  | .input, .positional => .ok ⟨stage.depth, .content⟩
  | .input, .named => .ok ⟨stage.depth, .content⟩
  | .input, .closing => leave implied stage bit
  | .input, kind =>
    if implied.toNat < stage.depth then .error ⟨.mismatch .closing (some kind) bit.text, bit.position⟩
    else .error (excess implied bit)

/-- The stage after some bits, or the fault at the first of them that is one. -/
def run (limit : Nat) (implied : Bool) (stage : Stage) (bits : List Bit) : Except Fault Stage :=
  bits.foldlM (next limit implied) stage

/-- The fault of an end that comes too early. -/
def early? (implied : Bool) (stop : Nat) (stage : Stage) : Option Fault :=
  if stage.phase = .name then some ⟨.mismatch .literal none "", stop⟩
  else if implied.toNat < stage.depth then some ⟨.mismatch .closing none "", stop⟩
  else none

/-- The first fault of some bits that end at `stop`. -/
def fault? (limit : Nat) (implied : Bool) (stop : Nat) (bits : List Bit) : Option Fault :=
  match run limit implied (start implied) bits with
  | .ok stage => stage.early? implied stop
  | .error fault => some fault

/-! ### Steps -/

section Next
variable {limit : Nat} {implied : Bool} {stage mid last : Stage} {bit : Bit} {bits rest : List Bit} {fault : Fault}

theorem next_content (h : stage.phase = .content) (hb : Grammar.IsText bit) :
    stage.next limit implied bit = .ok stage := by
  obtain ⟨ho, hc⟩ := hb
  unfold next
  cases hk : bit.kind <;> simp_all

theorem next_opening (h : stage.phase = .content) (hb : bit.kind = .opening) (hd : stage.depth ≤ limit) :
    stage.next limit implied bit = .ok ⟨stage.depth + 1, .name⟩ := by
  simp [next, h, hb, hd]

theorem next_name (h : stage.phase = .name) (hb : Grammar.IsName bit) :
    stage.next limit implied bit = .ok ⟨stage.depth, .input⟩ := by
  simp [next, h, hb.1, hb.2]

theorem next_separator (h : stage.phase = .input) (hb : bit.kind = .positional ∨ bit.kind = .named) :
    stage.next limit implied bit = .ok ⟨stage.depth, .content⟩ := by
  rcases hb with hb | hb <;> simp [next, h, hb]

theorem next_closing (h : stage.phase ≠ .name) (hb : bit.kind = .closing) :
    stage.next limit implied bit = stage.leave implied bit := by
  cases hp : stage.phase <;> simp_all [next]

theorem leave_eq_ok (hb : bit.kind = .closing) (hp : stage.phase ≠ .name) (h : stage.leave implied bit = .ok mid) :
    bit.kind = .closing ∧ stage.phase ≠ .name ∧ implied.toNat < stage.depth ∧ mid = ⟨stage.depth - 1, .content⟩ := by
  unfold leave at h
  split at h
  · next hd =>
    cases h
    exact ⟨hb, hp, hd, rfl⟩
  · cases h

/-- All that a bit can do to a reading. -/
theorem next_eq_ok (h : stage.next limit implied bit = .ok mid) :
    (bit.kind = .opening ∧ stage.phase = .content ∧ stage.depth ≤ limit ∧ mid = ⟨stage.depth + 1, .name⟩) ∨
    (bit.kind = .closing ∧ stage.phase ≠ .name ∧ implied.toNat < stage.depth ∧ mid = ⟨stage.depth - 1, .content⟩) ∨
    (Grammar.IsText bit ∧ mid.depth = stage.depth ∧ mid.phase ≠ .name) := by
  unfold next at h
  split at h
  · next hp hk =>
    split at h
    · next hd =>
      cases h
      exact Or.inl ⟨hk, hp, hd, rfl⟩
    · cases h
  · next hp hk => exact Or.inr (Or.inl (leave_eq_ok hk (by simp [hp]) h))
  · next hp ho hc =>
    cases h
    exact Or.inr (Or.inr ⟨⟨ho, hc⟩, rfl, by simp [hp]⟩)
  · next hp hk =>
    split at h
    · cases h
    · cases h
      exact Or.inr (Or.inr ⟨⟨by simp [hk], by simp [hk]⟩, rfl, nofun⟩)
  · cases h
  · next hp hk =>
    cases h
    exact Or.inr (Or.inr ⟨⟨by simp [hk], by simp [hk]⟩, rfl, nofun⟩)
  · next hp hk =>
    cases h
    exact Or.inr (Or.inr ⟨⟨by simp [hk], by simp [hk]⟩, rfl, nofun⟩)
  · next hp hk => exact Or.inr (Or.inl (leave_eq_ok hk (by simp [hp]) h))
  · split at h <;> cases h

theorem leave_eq_error (h : stage.leave implied bit = .error fault) :
    stage.depth ≤ implied.toNat ∧ fault = excess implied bit := by
  unfold leave at h
  split at h
  · cases h
  · next hd =>
    cases h
    exact ⟨Nat.le_of_not_lt hd, rfl⟩

/-- All that can be wrong with a bit. -/
theorem next_eq_error (h : stage.next limit implied bit = .error fault) :
    (bit.kind = .opening ∧ limit < stage.depth ∧ fault = ⟨.tooDeep limit, bit.position⟩) ∨
    (stage.phase = .name ∧ bit.kind = .literal ∧ Text.isBlank bit.text = true ∧
      fault = ⟨.blankName bit.text, bit.position⟩) ∨
    (stage.phase = .name ∧ bit.kind ≠ .literal ∧
      fault = ⟨.mismatch .literal (some bit.kind) bit.text, bit.position⟩) ∨
    (stage.phase = .input ∧ (bit.kind = .literal ∨ bit.kind = .opening) ∧ implied.toNat < stage.depth ∧
      fault = ⟨.mismatch .closing (some bit.kind) bit.text, bit.position⟩) ∨
    (stage.depth ≤ implied.toNat ∧ (bit.kind = .closing ∨
      stage.phase = .input ∧ (bit.kind = .literal ∨ bit.kind = .opening)) ∧ fault = excess implied bit) := by
  unfold next at h
  split at h
  · next hk =>
    split at h
    · cases h
    · next hd =>
      cases h
      exact Or.inl ⟨hk, Nat.lt_of_not_le hd, rfl⟩
  · next hk =>
    obtain ⟨hd, rfl⟩ := leave_eq_error h
    exact Or.inr (Or.inr (Or.inr (Or.inr ⟨hd, Or.inl hk, rfl⟩)))
  · cases h
  · next hp hk =>
    split at h
    · next hb =>
      cases h
      exact Or.inr (Or.inl ⟨hp, hk, hb, rfl⟩)
    · cases h
  · next hp hk =>
    cases h
    exact Or.inr (Or.inr (Or.inl ⟨hp, hk, rfl⟩))
  · cases h
  · cases h
  · next hk =>
    obtain ⟨hd, rfl⟩ := leave_eq_error h
    exact Or.inr (Or.inr (Or.inr (Or.inr ⟨hd, Or.inl hk, rfl⟩)))
  · next hp hpos hnamed hc =>
    have hk : bit.kind = .literal ∨ bit.kind = .opening := by
      cases hkind : bit.kind <;> simp_all
    split at h
    · next hd =>
      cases h
      exact Or.inr (Or.inr (Or.inr (Or.inl ⟨hp, hk, hd, rfl⟩)))
    · next hd =>
      cases h
      exact Or.inr (Or.inr (Or.inr (Or.inr ⟨Nat.le_of_not_lt hd, Or.inr ⟨hp, hk⟩, rfl⟩)))

theorem position_next (h : stage.next limit implied bit = .error fault) : fault.position = bit.position := by
  rcases next_eq_error h with ⟨-, -, rfl⟩ | ⟨-, -, -, rfl⟩ | ⟨-, -, rfl⟩ | ⟨-, -, -, rfl⟩ | ⟨-, -, rfl⟩ <;> rfl

/-- An input can only come next after the name of a token. -/
theorem name_of_next (h : stage.next limit implied bit = .ok mid) (hp : mid.phase = .input) :
    bit.kind = .literal ∧ stage.phase = .name ∧ mid.depth = stage.depth := by
  unfold next leave at h
  split at h
  · split at h <;> cases h
    cases hp
  · split at h <;> cases h
    cases hp
  · next hcontent _ _ =>
    cases h
    rw [hcontent] at hp
    cases hp
  · next hname hk =>
    split at h <;> cases h
    exact ⟨hk, hname, rfl⟩
  · cases h
  · cases h
    cases hp
  · cases h
    cases hp
  · split at h <;> cases h
    cases hp
  · split at h <;> cases h

/-! ### Runs -/

@[simp] theorem run_nil : run limit implied stage [] = .ok stage := rfl

theorem run_cons (h : stage.next limit implied bit = .ok mid) :
    run limit implied stage (bit :: bits) = run limit implied mid bits := by
  simp [run, h, bind, Except.bind]

theorem run_cons_error (h : stage.next limit implied bit = .error fault) :
    run limit implied stage (bit :: bits) = .error fault := by
  simp [run, h, bind, Except.bind]

theorem run_append (h : run limit implied stage bits = .ok mid) :
    run limit implied stage (bits ++ rest) = run limit implied mid rest := by
  unfold run at h ⊢
  simp [h, bind, Except.bind]

theorem run_append_error (h : run limit implied stage bits = .error fault) :
    run limit implied stage (bits ++ rest) = .error fault := by
  unfold run at h ⊢
  simp [h, bind, Except.bind]

theorem run_cons_eq_ok (h : run limit implied stage (bit :: bits) = .ok last) :
    ∃ mid, stage.next limit implied bit = .ok mid ∧ run limit implied mid bits = .ok last := by
  cases hn : stage.next limit implied bit with
  | ok mid => exact ⟨mid, rfl, by rwa [run_cons hn] at h⟩
  | error fault =>
    rw [run_cons_error hn] at h
    cases h

theorem run_append_eq_ok (h : run limit implied stage (bits ++ rest) = .ok last) :
    ∃ mid, run limit implied stage bits = .ok mid ∧ run limit implied mid rest = .ok last := by
  cases hb : run limit implied stage bits with
  | ok mid => exact ⟨mid, rfl, by rwa [run_append hb] at h⟩
  | error fault =>
    rw [run_append_error hb] at h
    cases h

/-- A reading that fails does so at one bit, and it gets past all bits before that. -/
theorem run_eq_error (h : run limit implied stage bits = .error fault) :
    ∃ front bit back mid, bits = front ++ bit :: back ∧ run limit implied stage front = .ok mid ∧
      mid.next limit implied bit = .error fault := by
  induction bits generalizing stage with
  | nil => cases h
  | cons bit bits ih =>
    cases hn : stage.next limit implied bit with
    | ok mid =>
      rw [run_cons hn] at h
      obtain ⟨front, bad, back, last, rfl, hr, hb⟩ := ih h
      exact ⟨bit :: front, bad, back, last, rfl, by rw [run_cons hn, hr], hb⟩
    | error fault =>
      rw [run_cons_error hn] at h
      cases h
      exact ⟨[], bit, bits, stage, rfl, rfl, hn⟩

/-- The last bit before an input is a name. -/
theorem literal_of_run (h : run limit implied (start implied) bits = .ok last) (hp : last.phase = .input) :
    ∃ bit ∈ bits.getLast?, bit.kind = .literal := by
  rcases List.eq_nil_or_concat bits with rfl | ⟨before, name, rfl⟩
  · cases h
    cases implied <;> cases hp
  · rw [List.concat_eq_append] at h
    obtain ⟨mid, -, hr⟩ := run_append_eq_ok h
    obtain ⟨next, hn, hnil⟩ := run_cons_eq_ok hr
    cases hnil
    exact ⟨name, by simp, (name_of_next hn hp).1⟩

end Next

/-! ### Open tokens -/

/-- The number of opening markers. -/
def openings (bits : List Bit) : Nat :=
  bits.countP (·.kind = .opening)

/-- The number of closing markers. -/
def closings (bits : List Bit) : Nat :=
  bits.countP (·.kind = .closing)

theorem openings_cons (bit : Bit) (bits : List Bit) : openings (bit :: bits) = openings [bit] + openings bits := by
  simp [openings, List.countP_cons, Nat.add_comm]

theorem closings_cons (bit : Bit) (bits : List Bit) : closings (bit :: bits) = closings [bit] + closings bits := by
  simp [closings, List.countP_cons, Nat.add_comm]

section Depth
variable {limit : Nat} {implied : Bool} {stage mid last : Stage} {bit : Bit} {bits rest : List Bit} {fault : Fault}

theorem depth_next (h : stage.next limit implied bit = .ok mid) :
    mid.depth + closings [bit] = stage.depth + openings [bit] := by
  rcases next_eq_ok h with ⟨hk, -, -, rfl⟩ | ⟨hk, -, hd, rfl⟩ | ⟨⟨ho, hc⟩, hd, -⟩
  · simp [openings, closings, hk]
  · simp [openings, closings, hk]
    omega
  · simp [openings, closings, ho, hc, hd]

/-- Counting markers tells how many tokens are open. -/
theorem depth_run (h : run limit implied stage bits = .ok last) :
    last.depth + closings bits = stage.depth + openings bits := by
  induction bits generalizing stage with
  | nil =>
    cases h
    rfl
  | cons bit bits ih =>
    obtain ⟨mid, hn, hr⟩ := run_cons_eq_ok h
    have hstep := depth_next hn
    have hrest := ih hr
    rw [openings_cons, closings_cons]
    omega

/-- What is open from the start stays open, and no more tokens than the limit allows are opened. -/
theorem depth_bounds (h : run limit implied stage bits = .ok last) (hf : implied.toNat ≤ stage.depth)
    (hl : stage.depth ≤ limit + 1) : implied.toNat ≤ last.depth ∧ last.depth ≤ limit + 1 := by
  induction bits generalizing stage with
  | nil =>
    cases h
    exact ⟨hf, hl⟩
  | cons bit bits ih =>
    obtain ⟨mid, hn, hr⟩ := run_cons_eq_ok h
    rcases next_eq_ok hn with ⟨-, -, hd, rfl⟩ | ⟨-, -, hd, rfl⟩ | ⟨-, hd, -⟩
    · exact ih hr (by simp; omega) (by simp; omega)
    · exact ih hr (by simp; omega) (by simp; omega)
    · exact ih hr (by omega) (by omega)

theorem start_depth (implied : Bool) : (start implied).depth = implied.toNat := by
  cases implied <;> rfl

end Depth

/-! ### Endings -/

section Ending
variable {implied : Bool} {stage : Stage}

theorem early?_eq_none_iff {stop : Nat} :
    stage.early? implied stop = none ↔ stage.phase ≠ .name ∧ stage.depth ≤ implied.toNat := by
  unfold early?
  split
  · next hp => simp [hp]
  · next hp => simp [hp]

/-- Closing the tokens that are open ends a reading, once the last of them has its name. -/
theorem exists_closed (limit : Nat) (stage : Stage) (hp : stage.phase ≠ .name) : ∃ more last,
    run limit implied stage more = .ok last ∧ last.phase ≠ .name ∧ last.depth ≤ implied.toNat := by
  by_cases hd : implied.toNat < stage.depth
  · let closing : Bit := ⟨.closing, "\x7d\x7d", 0⟩
    have step : stage.next limit implied closing = .ok ⟨stage.depth - 1, .content⟩ := by
      rw [next_closing hp rfl, leave, if_pos hd]
    obtain ⟨more, last, hr, hlast⟩ := exists_closed limit ⟨stage.depth - 1, .content⟩ nofun
    exact ⟨closing :: more, last, by rw [run_cons step, hr], hlast⟩
  · exact ⟨[], stage, rfl, hp, Nat.le_of_not_lt hd⟩
termination_by stage.depth
decreasing_by exact Nat.sub_one_lt (Nat.ne_of_gt (Nat.zero_lt_of_lt hd))

theorem exists_ended (limit : Nat) (stage : Stage) : ∃ more last,
    run limit implied stage more = .ok last ∧ last.phase ≠ .name ∧ last.depth ≤ implied.toNat := by
  by_cases hp : stage.phase = .name
  · let name : Bit := ⟨.literal, "a", 0⟩
    have step : stage.next limit implied name = .ok ⟨stage.depth, .input⟩ := next_name hp ⟨rfl, by decide⟩
    obtain ⟨more, last, hr, hlast⟩ := exists_closed limit ⟨stage.depth, .input⟩ nofun
    exact ⟨name :: more, last, by rw [run_cons step, hr], hlast⟩
  · exact exists_closed limit stage hp

end Ending

/-! ### The first fault -/

section First
variable {limit stop : Nat} {implied : Bool} {stage : Stage} {bits : List Bit} {fault : Fault}

/-- A fault is a bit that cannot come next, or the end. -/
theorem fault?_cases (h : fault? limit implied stop bits = some fault) :
    (∃ front bit back mid, bits = front ++ bit :: back ∧ run limit implied (start implied) front = .ok mid ∧
      mid.next limit implied bit = .error fault) ∨
    ∃ last, run limit implied (start implied) bits = .ok last ∧ last.early? implied stop = some fault := by
  unfold fault? at h
  split at h
  · next last hr => exact Or.inr ⟨last, hr, h⟩
  · next met hr =>
    cases h
    exact Or.inl (run_eq_error hr)

theorem position_early (h : stage.early? implied stop = some fault) : fault.position = stop := by
  unfold early? at h
  split at h
  · cases h
    rfl
  · split at h <;> cases h
    rfl

end First

end Stage

end Placeholder
