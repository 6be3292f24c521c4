import Placeholder.Proofs.Grammar.Acceptance
import Placeholder.Proofs.Stage.Basic

/-! # The fault that a reader meets

A reader takes the bits of an input off the queue before it looks at any of them, and reads the inputs in it in the
same way. All the same it answers with the first fault that shows when the bits are read from left to right. What
carries this is that counting braces either stops at a closing marker, and then the bits taken open no more tokens
than they close, or takes all bits there are, and then their end is the end of the queue. -/

namespace Placeholder.Grammar
open Reading Stage

/-! ### What is derived has no fault -/

section Derived
variable {limit : Nat} {implied : Bool}

mutual

theorem Sequence.run_eq {depth : Nat} {bits : List Bit} {nodes : List Node} (hf : implied.toNat ≤ depth) :
    Sequence limit depth bits nodes → run limit implied ⟨depth, .content⟩ bits = .ok ⟨depth, .content⟩
  | .nil => rfl
  | .text plain rest => by
    rw [run_cons (next_content rfl plain)]
    exact rest.run_eq hf
  | .token first others => by
    rw [run_append (first.run_eq hf)]
    exact others.run_eq hf

theorem Token.run_eq {depth : Nat} {bits : List Bit} {node : Node} (hf : implied.toNat ≤ depth) :
    Token limit depth bits node → run limit implied ⟨depth, .content⟩ bits = .ok ⟨depth, .content⟩
  | @Token.braced _ _ _ _ closing _ _ fits opens named argued closes => by
    obtain ⟨phase, hp, hr⟩ := argued.run_eq (Nat.le_succ_of_le hf)
    have hclose : next limit implied ⟨depth + 1, phase⟩ closing = .ok ⟨depth, .content⟩ := by
      rw [next_closing hp closes, leave, if_pos (Nat.lt_succ_of_le hf)]
      rfl
    rw [run_cons (next_opening rfl opens fits), run_cons (next_name rfl named), run_append hr, run_cons hclose, run_nil]

theorem Input.run_eq {depth : Nat} {bits : List Bit} {input : Option (List Node)} (hf : implied.toNat ≤ depth + 1) :
    Input limit depth bits input →
      ∃ phase, phase ≠ .name ∧ run limit implied ⟨depth + 1, .input⟩ bits = .ok ⟨depth + 1, phase⟩
  | .none => ⟨.input, nofun, rfl⟩
  | .positional kind content => by
    refine ⟨.content, nofun, ?_⟩
    rw [run_cons (next_separator rfl (Or.inl kind))]
    exact content.run_eq hf
  | .named kind content => by
    refine ⟨.content, nofun, ?_⟩
    rw [run_cons (next_separator rfl (Or.inr kind))]
    exact content.run_eq hf

end

theorem Whole.fault?_eq {stop : Nat} {bits : List Bit} {nodes : List Node} :
    Whole limit implied bits nodes → fault? limit implied stop bits = none
  | .mixed mix => by
    have hrun : run limit false (start false) bits = .ok ⟨0, .content⟩ := mix.run_eq (Nat.zero_le 0)
    simp [fault?, hrun, early?]
  | @Whole.sole _ name bits _ named argued => by
    have hf : true.toNat ≤ 0 + 1 := Nat.le_refl 1
    obtain ⟨phase, hp, hr⟩ := argued.run_eq hf
    have hrun : run limit true (start true) (name :: bits) = .ok ⟨1, phase⟩ := by
      rw [run_cons (next_name rfl named)]
      exact hr
    simp [fault?, hrun, early?, hp]

end Derived

/-! ### The bits of an input -/

section Enclosed
variable {bits : List Bit}

theorem enclosed_closing_zero {bit : Bit} (h : bit.kind = .closing) (rest : List Bit) :
    enclosed 0 (bit :: rest) = ([], bit :: rest) := by
  rw [enclosed.eq_def]
  simp only [h]

/-- A bit ends the input or is taken, and then it opens or closes as many tokens as it counts for. -/
theorem enclosed_cons (depth : Nat) (bit : Bit) : bit.kind = .closing ∧ depth = 0 ∨
    ∃ next, next + closings [bit] = depth + openings [bit] ∧
      ∀ rest, enclosed depth (bit :: rest) = (bit :: (enclosed next rest).1, (enclosed next rest).2) := by
  rcases kind_cases bit with hk | hk | hk
  · exact Or.inr ⟨depth + 1, by simp [openings, closings, hk], enclosed_opening hk depth⟩
  · cases depth with
    | zero => exact Or.inl ⟨hk, rfl⟩
    | succ depth => exact Or.inr ⟨depth, by simp [openings, closings, hk], enclosed_closing hk depth⟩
  · exact Or.inr ⟨depth, by simp [openings, closings, hk.1, hk.2], enclosed_text hk depth⟩

theorem ends_enclosed (depth : Nat) (bits : List Bit) : Ends (enclosed depth bits).2 := by
  induction bits generalizing depth with
  | nil => nofun
  | cons bit rest ih =>
    rcases enclosed_cons depth bit with ⟨hk, rfl⟩ | ⟨next, -, he⟩
    · rw [enclosed_closing_zero hk]
      intro b hb
      cases hb
      exact hk
    · rw [he]
      exact ih next

/-- Counting braces in the bits taken takes all of them. -/
theorem enclosed_fst (depth : Nat) (bits : List Bit) : (enclosed depth (enclosed depth bits).1).2 = [] := by
  induction bits generalizing depth with
  | nil => rfl
  | cons bit rest ih =>
    rcases enclosed_cons depth bit with ⟨hk, rfl⟩ | ⟨next, -, he⟩
    · rw [enclosed_closing_zero hk]
      rfl
    · rw [he, he]
      exact ih next

/-- If something is left, the bits taken close all tokens that they open, and those open before. -/
theorem closings_enclosed {depth : Nat} (h : (enclosed depth bits).2 ≠ []) :
    closings (enclosed depth bits).1 = openings (enclosed depth bits).1 + depth := by
  induction bits generalizing depth with
  | nil => exact absurd rfl h
  | cons bit rest ih =>
    rcases enclosed_cons depth bit with ⟨hk, rfl⟩ | ⟨next, hnext, he⟩
    · rw [enclosed_closing_zero hk]
      rfl
    · rw [he] at h ⊢
      have := ih h
      rw [closings_cons, openings_cons]
      omega

end Enclosed

/-! ### Steps that fail -/

section Steps
variable {α β : Type} {stop : Nat} {read : Nested} {bits rest after : List Bit} {fault : Fault}

theorem bind_eq_error {step : Reading α} {next : α → Reading β} (h : (step >>= next) bits = .error fault after) :
    step bits = .error fault after ∨ ∃ a mid, step bits = .ok a mid ∧ next a mid = .error fault after := by
  change EStateM.bind step next bits = .error fault after at h
  unfold EStateM.bind at h
  split at h
  · next a mid he => exact Or.inr ⟨a, mid, he, h⟩
  · next he =>
    cases h
    exact Or.inl he

theorem map_eq_error {f : α → β} {step : Reading α} (h : (f <$> step) bits = .error fault after) :
    step bits = .error fault after := by
  rw [← bind_pure_comp] at h
  rcases bind_eq_error h with h | ⟨a, mid, -, h⟩
  · exact h
  · cases h

theorem expect_eq_error {kind : Bit.Kind} (h : expect stop kind bits = .error fault after) :
    (bits = [] ∧ fault = ⟨.mismatch kind none "", stop⟩) ∨
    ∃ bit rest, bits = bit :: rest ∧ bit.kind ≠ kind ∧
      fault = ⟨.mismatch kind (some bit.kind) bit.text, bit.position⟩ := by
  unfold expect at h
  split at h
  · cases h
    exact Or.inl ⟨rfl, rfl⟩
  · next bit rest =>
    split at h
    · cases h
    · next hk =>
      cases h
      exact Or.inr ⟨bit, rest, rfl, hk, rfl⟩

theorem name_eq_error (h : name stop bits = .error fault after) :
    (bits = [] ∧ fault = ⟨.mismatch .literal none "", stop⟩) ∨
    ∃ bit rest, bits = bit :: rest ∧ ∀ limit implied depth, next limit implied ⟨depth, .name⟩ bit = .error fault := by
  rcases bind_eq_error h with he | ⟨bit, mid, he, hb⟩
  · rcases expect_eq_error he with hnil | ⟨bit, rest, rfl, hk, rfl⟩
    · exact Or.inl hnil
    · refine Or.inr ⟨bit, rest, rfl, fun limit implied depth => ?_⟩
      unfold next
      cases hb : bit.kind <;> simp_all
  · obtain ⟨rfl, hk⟩ := expect_eq_ok he
    refine Or.inr ⟨bit, mid, rfl, fun limit implied depth => ?_⟩
    split at hb
    · next hblank =>
      cases hb
      simp [next, hk, hblank]
    · cases hb

theorem arguments_eq_error (h : arguments stop read bits = .error fault after) :
    read (position stop (enclosed 0 bits).2) (enclosed 0 bits).1 = .error fault := by
  unfold arguments at h
  dsimp only at h
  split at h
  · cases h
  · next hr =>
    cases h
    exact hr

/-- After an input comes the end of its token. Where there is none, no separator comes next. -/
theorem input?_leaves {input : Option (List Node)} (h : input? stop read bits = .ok input rest) :
    Ends rest ∨ rest = bits ∧ ∀ bit ∈ rest.head?, bit.kind ≠ .positional ∧ bit.kind ≠ .named := by
  have ends {queue : List Bit} (h : (some <$> arguments stop read) queue = .ok input rest) : Ends rest := by
    obtain ⟨parts, -, ha⟩ := some_arguments_eq_ok h
    obtain ⟨front, he, -⟩ := arguments_eq_ok ha
    have := ends_enclosed 0 queue
    rwa [he] at this
  cases bits with
  | nil =>
    cases h
    exact Or.inl nofun
  | cons bit bits =>
    unfold input? at h
    dsimp only at h
    split at h
    · exact Or.inl (ends h)
    · exact Or.inl (ends h)
    · next hp hn =>
      cases h
      refine Or.inr ⟨rfl, fun b hb => ?_⟩
      cases hb
      exact ⟨hp, hn⟩

end Steps

/-! ### What a failing reader shows -/

/-- From a stage inside of `depth` tokens these bits come to the fault: it is one of them, or they end while a token
    further in is open. -/
def Meets (limit : Nat) (implied : Bool) (stop depth : Nat) (stage : Stage) (bits : List Bit) (fault : Fault) : Prop :=
  run limit implied stage bits = .error fault ∨
    ∃ last, run limit implied stage bits = .ok last ∧ depth < last.depth ∧ last.early? implied stop = some fault

section Meets
variable {limit depth stop : Nat} {implied own : Bool} {read : Nested} {stage mid : Stage}
  {bits front rest after : List Bit} {bit : Bit} {fault : Fault}

theorem Meets.congr (h : Meets limit implied stop depth mid bits fault)
    (hr : run limit implied stage rest = run limit implied mid bits) :
    Meets limit implied stop depth stage rest fault := by
  unfold Meets at h ⊢
  rwa [hr]

theorem Meets.append (hr : run limit implied stage front = .ok mid)
    (h : Meets limit implied stop depth mid rest fault) : Meets limit implied stop depth stage (front ++ rest) fault :=
  h.congr (run_append hr)

theorem Meets.cons (hn : stage.next limit implied bit = .ok mid)
    (h : Meets limit implied stop depth mid rest fault) : Meets limit implied stop depth stage (bit :: rest) fault :=
  h.congr (run_cons hn)

/-- A way to read an input comes to the fault that its bits show inside of their token. -/
def Shows (limit : Nat) (implied : Bool) (depth : Nat) (read : Nested) (bits : List Bit) : Prop :=
  ∀ stop fault, (enclosed 0 bits).2 = [] → read stop bits = .error fault →
    Meets limit implied stop (depth + 1) ⟨depth + 1, .content⟩ bits fault

theorem arguments_meets (ih : Shows limit implied depth read (enclosed 0 bits).1)
    (h : arguments stop read bits = .error fault after) :
    Meets limit implied stop depth ⟨depth + 1, .content⟩ bits fault := by
  have hall := enclosed_append 0 bits
  have hinner := enclosed_fst 0 bits
  have hclosed : (enclosed 0 bits).2 ≠ [] → closings (enclosed 0 bits).1 = openings (enclosed 0 bits).1 + 0 :=
    closings_enclosed
  have hread := arguments_eq_error h
  generalize hi : (enclosed 0 bits).1 = inner at *
  generalize hr : (enclosed 0 bits).2 = left at *
  subst hall
  rcases ih _ _ hinner hread with hrun | ⟨last, hrun, hdepth, hearly⟩
  · exact Or.inl (run_append_error hrun)
  · cases left with
    | nil => exact Or.inr ⟨last, by rwa [List.append_nil], by omega, hearly⟩
    | cons closing left =>
      -- The bits taken close what they open, so no token is left open in them.
      have hcount := depth_run hrun
      have := hclosed (by simp)
      simp at hcount
      omega

theorem input?_meets (ih : ∀ inner, inner.length ≤ bits.length → Shows limit implied depth read inner)
    (h : input? stop read bits = .error fault after) :
    Meets limit implied stop depth ⟨depth + 1, .input⟩ bits fault := by
  have short {queue : List Bit} (hq : queue.length ≤ bits.length) : Shows limit implied depth read (enclosed 0 queue).1 :=
    ih _ (by
      have := congrArg List.length (enclosed_append 0 queue)
      rw [List.length_append] at this
      omega)
  cases bits with
  | nil => cases h
  | cons bit bits =>
    unfold input? at h
    dsimp only at h
    split at h
    · next hk =>
      have ha := arguments_meets (short (by simp)) (map_eq_error h)
      exact ha.cons (next_separator rfl (Or.inl hk))
    · next hk =>
      -- The separator is the first bit of the input, where it is plain text.
      have ha := arguments_meets (short (Nat.le_refl _)) (map_eq_error h)
      refine ha.congr ?_
      rw [run_cons (next_separator rfl (Or.inr hk)), run_cons (next_content rfl (isText_of_kind hk (by simp) (by simp)))]
    · cases h

theorem call_meets (ih : ∀ inner, inner.length < bits.length → Shows limit implied depth read inner)
    (h : call stop read own bits = .error fault after) :
    Meets limit implied stop depth ⟨depth + 1, .name⟩ bits fault := by
  rcases bind_eq_error h with hn | ⟨text, afterName, hn, hrest⟩
  · rcases name_eq_error hn with ⟨rfl, rfl⟩ | ⟨bit, rest, rfl, hb⟩
    · exact Or.inr ⟨_, rfl, Nat.lt_succ_self depth, rfl⟩
    · exact Or.inl (run_cons_error (hb _ _ _))
  · obtain ⟨bit, rfl, named, -⟩ := name_eq_ok hn
    rcases bind_eq_error hrest with hi | ⟨input, mid, -, hend⟩
    · exact (input?_meets (fun inner hl => ih inner (Nat.lt_succ_of_le hl)) hi).cons (next_name rfl named)
    · cases hend

/-- A name and its input are got past, and then the token has to end. -/
theorem call_passes {node : Node} (hf : implied.toNat ≤ depth + 1)
    (ih : ∀ inner, inner.length < bits.length → Derives limit depth read inner)
    (h : call stop read own bits = .ok node rest) :
    ∃ front phase, bits = front ++ rest ∧ phase ≠ .name ∧
      run limit implied ⟨depth + 1, .name⟩ front = .ok ⟨depth + 1, phase⟩ ∧
      ∀ bit ∈ rest.head?, bit.kind ≠ .closing → phase = .input ∧ bit.kind ≠ .positional ∧ bit.kind ≠ .named := by
  obtain ⟨text, afterName, hn, hrest⟩ := bind_eq_ok h
  obtain ⟨name, rfl, named, rfl⟩ := name_eq_ok hn
  obtain ⟨input, afterInput, hi, hend⟩ := bind_eq_ok hrest
  cases hend
  obtain ⟨front, rfl, argued⟩ := input_derives (fun inner hl => ih inner (Nat.lt_succ_of_le hl)) hi
  rcases input?_leaves hi with ends | ⟨hall, hseparator⟩
  · obtain ⟨phase, hp, hr⟩ := argued.run_eq hf
    refine ⟨name :: front, phase, rfl, hp, ?_, fun bit hb hk => absurd (ends bit hb) hk⟩
    rw [run_cons (next_name rfl named), hr]
  · obtain rfl : front = [] := by simpa using hall
    refine ⟨[name], .input, rfl, nofun, ?_, fun bit hb _ => ⟨rfl, hseparator bit hb⟩⟩
    rw [run_cons (next_name rfl named), run_nil]

theorem closing_meets {phase : Phase} (hf : implied.toNat ≤ depth) (hp : phase ≠ .name)
    (hb : ∀ bit ∈ bits.head?, bit.kind ≠ .closing → phase = .input ∧ bit.kind ≠ .positional ∧ bit.kind ≠ .named)
    (h : expect stop .closing bits = .error fault after) :
    Meets limit implied stop depth ⟨depth + 1, phase⟩ bits fault := by
  have inside : implied.toNat < depth + 1 := Nat.lt_succ_of_le hf
  rcases expect_eq_error h with ⟨rfl, rfl⟩ | ⟨bit, rest, rfl, hk, rfl⟩
  · exact Or.inr ⟨_, rfl, Nat.lt_succ_self depth, by simp [early?, hp, inside]⟩
  · obtain ⟨rfl, hpos, hnamed⟩ := hb bit rfl hk
    refine Or.inl (run_cons_error ?_)
    unfold next
    cases hkind : bit.kind <;> simp_all

theorem token_meets (hf : implied.toNat ≤ depth) (hb : bit.kind = .opening)
    (ih : ∀ queue, queue.length < rest.length → Shows limit implied depth (inner limit (limit - depth)) queue)
    (h : token limit stop (level limit depth) false (bit :: rest) = .error fault after) :
    Meets limit implied stop depth ⟨depth, .content⟩ (bit :: rest) fault := by
  by_cases fits : depth ≤ limit
  · rw [level_of_le fits] at h
    refine Meets.cons (next_opening rfl hb fits) ?_
    rcases bind_eq_error h with ho | ⟨opening, afterOpening, ho, hcall⟩
    · rw [expect_of_kind hb] at ho
      cases ho
    · rw [expect_of_kind hb] at ho
      cases ho
      rcases bind_eq_error hcall with hc | ⟨node, afterCall, hc, hclose⟩
      · exact call_meets ih hc
      · obtain ⟨front, phase, rfl, hp, hr, hends⟩ :=
          call_passes (Nat.le_succ_of_le hf) (fun queue _ => derives_inner limit depth queue) hc
        rcases bind_eq_error hclose with he | ⟨closing, afterClosing, -, hend⟩
        · exact (closing_meets hf hp hends he).append hr
        · cases hend
  · rw [level_of_lt (Nat.lt_of_not_le fits)] at h
    cases h
    refine Or.inl (run_cons_error ?_)
    simp [next, hb, fits, position]

theorem items_eq_error {nested? : Option Nested} (h : items limit stop nested? bits = .error fault after) :
    (∃ bit rest, bits = bit :: rest ∧ IsText bit ∧ items limit stop nested? rest = .error fault after) ∨
    (∃ bit rest, bits = bit :: rest ∧ bit.kind = .closing ∧ fault = ⟨.stray bit.kind bit.text, bit.position⟩) ∨
    (∃ bit rest, bits = bit :: rest ∧ bit.kind = .opening ∧
      token limit stop nested? false bits = .error fault after) ∨
    (∃ node rest, token limit stop nested? false bits = .ok node rest ∧
      items limit stop nested? rest = .error fault after) := by
  cases bits with
  | nil =>
    rw [items_nil] at h
    cases h
  | cons bit rest =>
    rcases kind_cases bit with hk | hk | plain
    · cases ht : token limit stop nested? false (bit :: rest) with
      | ok node mid =>
        rw [items_token hk ht] at h
        exact Or.inr (Or.inr (Or.inr ⟨node, mid, rfl, consNode_eq_error h⟩))
      | error met mid =>
        rw [items_token_error hk ht] at h
        cases h
        exact Or.inr (Or.inr (Or.inl ⟨bit, rest, rfl, hk, rfl⟩))
    · rw [items_closing hk] at h
      cases h
      exact Or.inr (Or.inl ⟨bit, _, rfl, hk, rfl⟩)
    · rw [items_text plain] at h
      exact Or.inl ⟨bit, rest, rfl, plain, consNode_eq_error h⟩

theorem shows_inner
    (ih : ∀ stop fault after, (enclosed 0 bits).2 = [] →
      items limit stop (level limit (depth + 1)) bits = .error fault after →
      Meets limit implied stop (depth + 1) ⟨depth + 1, .content⟩ bits fault) :
    Shows limit implied depth (inner limit (limit - depth)) bits := by
  intro stop fault hall hread
  rw [inner_eq] at hread
  cases hr : items limit stop (level limit (depth + 1)) bits with
  | ok nodes after =>
    rw [hr] at hread
    cases hread
  | error fault' after =>
    rw [hr] at hread
    cases hread
    exact ih _ _ _ hall hr

end Meets

/-- A loop that fails has met the fault of its bits. Inside of a token these must not close more than they open. -/
theorem items_meets {limit depth stop : Nat} {implied : Bool} {bits after : List Bit} {fault : Fault}
    (hf : implied.toNat ≤ depth) (hb : implied = false ∧ depth = 0 ∨ (enclosed 0 bits).2 = [])
    (h : items limit stop (level limit depth) bits = .error fault after) :
    Meets limit implied stop depth ⟨depth, .content⟩ bits fault := by
  -- The induction is on how many bits are left, as a token takes off more than one and then its input is read again.
  induction hn : bits.length using Nat.strongRecOn generalizing depth stop bits after fault with
  | ind n ih =>
    subst hn
    rcases items_eq_error h with ⟨bit, rest, rfl, plain, hr⟩ | ⟨bit, rest, rfl, hk, rfl⟩ | ⟨bit, rest, rfl, hk, ht⟩ |
      ⟨node, rest, ht, hr⟩
    · rw [enclosed_text plain] at hb
      exact (ih _ (Nat.lt_succ_self _) hf hb hr rfl).cons (next_content rfl plain)
    · rw [enclosed_closing_zero hk] at hb
      obtain ⟨rfl, rfl⟩ := hb.resolve_right (by simp)
      refine Or.inl (run_cons_error ?_)
      have hp : Phase.content ≠ .name := nofun
      rw [next_closing hp hk]
      rfl
    · refine token_meets hf hk (fun queue hl => ?_) ht
      exact shows_inner fun stop fault after hall hr =>
        ih _ (Nat.lt_succ_of_lt hl) (Nat.le_succ_of_le hf) (Or.inr hall) hr rfl
    · have hlt := length_token_lt ht
      obtain ⟨front, rfl, hd⟩ := token_derives (fun queue _ => derives_inner limit depth queue) ht
      rw [hd.balanced] at hb
      exact (ih _ hlt hf hb hr rfl).append (hd.run_eq hf)

/-! ### Whole queues -/

section Whole
variable {limit stop : Nat} {implied : Bool} {rule : Node.Rule} {bits after : List Bit} {fault : Fault}

theorem Meets.fault?_eq {depth : Nat} (h : Meets limit implied stop depth (start implied) bits fault) :
    fault? limit implied stop bits = some fault := by
  rcases h with hr | ⟨last, hr, -, he⟩ <;> simp [fault?, *]

theorem sole_eq_error (h : sole limit 0 stop bits = .error fault after) : fault? limit true stop bits = some fault := by
  have hf : true.toNat ≤ 0 + 1 := Nat.le_refl 1
  rcases bind_eq_error h with hc | ⟨node, afterCall, hc, hrest⟩
  · rw [level_of_le (Nat.zero_le limit)] at hc
    change call stop (inner limit (limit - 0)) true bits = .error fault after at hc
    have shows (queue : List Bit) : Shows limit true 0 (inner limit (limit - 0)) queue :=
      shows_inner fun _ _ _ hall hr => items_meets hf (Or.inr hall) hr
    exact (call_meets (fun queue _ => shows queue) hc).fault?_eq
  · rw [level_of_le (Nat.zero_le limit)] at hc
    obtain ⟨front, phase, rfl, hp, hr, hends⟩ := call_passes hf (fun queue _ => derives_inner limit 0 queue) hc
    rcases bind_eq_error hrest with hg | ⟨queue, afterGet, hg, hend⟩
    · cases hg
    · cases hg
      cases afterCall with
      | nil => cases hend
      | cons bit rest =>
        cases hend
        -- Whatever follows, there is no token in braces that it could belong to.
        have hbad : next limit true ⟨1, phase⟩ bit = .error (excess true bit) := by
          by_cases hk : bit.kind = .closing
          · rw [next_closing hp hk]
            rfl
          · obtain ⟨rfl, hpos, hnamed⟩ := hends bit rfl hk
            unfold next
            cases hkind : bit.kind <;> simp_all
        have hrun : run limit true (start true) (front ++ bit :: rest) = .error (excess true bit) :=
          (run_append hr).trans (run_cons_error hbad)
        simp [fault?, hrun, excess]

theorem sequence_eq_error (h : Reading.sequence limit 0 stop rule implied bits = .error fault after) :
    fault? limit implied stop bits = some fault := by
  cases implied with
  | true => exact sole_eq_error (map_eq_error h)
  | false =>
    have hi : items limit stop (level limit 0) bits = .error fault after := map_eq_error h
    have hf : false.toNat ≤ 0 := Nat.le_refl 0
    exact (items_meets hf (Or.inl ⟨rfl, rfl⟩) hi).fault?_eq

end Whole

/-- The fault of a reader is the first that its bits show from left to right. -/
theorem reader_sequence_eq_error_iff {reader : Reader} (h : reader.depth = 0) {rule : Node.Rule} {implied : Bool}
    {fault : Fault} : (reader.sequence rule implied).1 = .error fault ↔
      fault? reader.limit implied reader.stop reader.bits = some fault := by
  cases hs : Reading.sequence reader.limit 0 reader.stop rule implied reader.bits with
  | ok nodes after =>
    obtain ⟨-, items, whole, -⟩ := sequence_eq_ok_iff.mp hs
    rw [whole.fault?_eq]
    simp [Reader.sequence, Reader.run, h, hs]
  | error met after =>
    rw [sequence_eq_error hs]
    simp [Reader.sequence, Reader.run, h, hs]

/-- Bits are accepted if they show no fault. -/
theorem reader_sequence_ok_iff {reader : Reader} (h : reader.depth = 0) {rule : Node.Rule} {implied : Bool} :
    (∃ nodes, (reader.sequence rule implied).1 = .ok nodes) ↔
      fault? reader.limit implied reader.stop reader.bits = none := by
  rw [← Option.not_isSome_iff_eq_none, Option.isSome_iff_exists]
  have herror (fault : Fault) : (reader.sequence rule implied).1 = .error fault ↔
      fault? reader.limit implied reader.stop reader.bits = some fault :=
    reader_sequence_eq_error_iff h
  simp only [← herror]
  cases (reader.sequence rule implied).1 <;> simp

end Placeholder.Grammar
