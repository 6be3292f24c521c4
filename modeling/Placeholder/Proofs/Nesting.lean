import Placeholder.Proofs.Accepted
import Placeholder.Proofs.Grammar.Form
import Placeholder.Proofs.Node.Nesting

/-! # The nesting limit

The limit is compared with nothing but the number of open tokens, so that raising it changes a result only where it has
been reached. A text that is accepted under some limit is accepted under those that its tree is within, and under any
other the error points at the first opening marker that stands inside of too many tokens. -/

namespace Placeholder
open Bit Node Grammar Stage

/-! ### Derivations under another limit -/

namespace Grammar

mutual

theorem Sequence.relimit {limit other depth : Nat} {bits : List Bit} {nodes : List Node} :
    Sequence limit depth bits nodes → WithinAll other depth nodes → Sequence other depth bits nodes
  | .nil, _ => .nil
  | .text plain rest, h => by
    rw [WithinAll] at h
    exact .text plain (rest.relimit h.2)
  | .token first others, h => by
    rw [WithinAll] at h
    exact .token (first.relimit h.1) (others.relimit h.2)

theorem Token.relimit {limit other depth : Nat} {bits : List Bit} {node : Node} :
    Token limit depth bits node → Within other depth node → Token other depth bits node
  | .braced _ opens named argued closes, h => by
    rw [call, within_token] at h
    exact .braced h.1 opens named (argued.relimit h.2) closes

theorem Input.relimit {limit other depth : Nat} {bits : List Bit} {input : Option (List Node)} :
    Input limit depth bits input → (∀ parts ∈ input, WithinAll other (depth + 1) parts) → Input other depth bits input
  | .none, _ => .none
  | .positional kind inner, h => .positional kind (inner.relimit ((withinAll_tidy _).mp (h _ rfl)))
  | .named kind inner, h => by
    have hall := (withinAll_tidy _).mp (h _ rfl)
    rw [WithinAll] at hall
    exact .named kind (inner.relimit hall.2)

end

theorem Whole.relimit {limit other : Nat} {implied : Bool} {bits : List Bit} {nodes : List Node} :
    Whole limit implied bits nodes → WithinAll other 0 nodes → Whole other implied bits nodes
  | .mixed sequence, h => .mixed (sequence.relimit h)
  | .sole named argued, h => by
    rw [WithinAll, call, within_token] at h
    exact .sole named (argued.relimit h.1.2)

theorem Whole.within {limit : Nat} {implied : Bool} {bits : List Bit} {nodes : List Node}
    (h : Whole limit implied bits nodes) : WithinAll limit 0 nodes :=
  WellFormedAll.within nodes h.wellFormed

end Grammar

/-! ### Faults under another limit -/

namespace Stage

/-- The tokens around a bit: those open from the start and those opened and not closed before it. -/
def EnclosedBy (implied : Bool) (count : Nat) (before : List Bit) : Prop :=
  openings before + implied.toNat = closings before + count

section Limit
variable {limit more stop : Nat} {implied : Bool} {stage mid : Stage} {bits front : List Bit} {bit : Bit}

theorem next_limit (hl : limit ≤ more) : stage.next limit implied bit = stage.next more implied bit ∨
    stage.next limit implied bit = .error ⟨.tooDeep limit, bit.position⟩ := by
  unfold next
  split
  · by_cases hd : stage.depth ≤ limit
    · rw [if_pos hd, if_pos (hd.trans hl)]
      exact Or.inl rfl
    · rw [if_neg hd]
      exact Or.inr rfl
  all_goals exact Or.inl rfl

theorem run_limit (hl : limit ≤ more) : run limit implied stage bits = run more implied stage bits ∨
    ∃ position, run limit implied stage bits = .error ⟨.tooDeep limit, position⟩ := by
  induction bits generalizing stage with
  | nil => exact Or.inl rfl
  | cons bit bits ih =>
    cases hn : stage.next limit implied bit with
    | ok mid =>
      rcases next_limit hl with he | he <;> rw [hn] at he
      · rw [run_cons hn, run_cons he.symm]
        exact ih
      · cases he
    | error fault =>
      rw [run_cons_error hn]
      rcases next_limit hl with he | he <;> rw [hn] at he
      · exact Or.inl (run_cons_error he.symm).symm
      · exact Or.inr ⟨_, he⟩

/-- Raising the limit changes no fault but that of too deep a token. -/
theorem fault?_limit (hl : limit ≤ more) : fault? limit implied stop bits = fault? more implied stop bits ∨
    ∃ position, fault? limit implied stop bits = some ⟨.tooDeep limit, position⟩ := by
  unfold fault?
  rcases run_limit hl with h | ⟨position, h⟩ <;> rw [h]
  · exact Or.inl rfl
  · exact Or.inr ⟨position, rfl⟩

theorem enclosedBy_depth (h : run limit implied (start implied) front = .ok mid) :
    EnclosedBy implied mid.depth front := by
  have := depth_run h
  rw [start_depth] at this
  unfold EnclosedBy
  omega

theorem next_eq_tooDeep {position : Nat} (h : mid.next limit implied bit = .error ⟨.tooDeep limit, position⟩) :
    bit.kind = .opening ∧ limit < mid.depth := by
  rcases next_eq_error h with ⟨hk, hd, -⟩ | ⟨-, -, -, he⟩ | ⟨-, -, he⟩ | ⟨-, -, -, he⟩ | ⟨-, -, he⟩
  · exact ⟨hk, hd⟩
  · cases he
  · cases he
  · cases he
  · cases implied <;> cases he

end Limit

end Stage

/-! ### Texts under another limit -/

/-- The bit is the first opening marker that stands inside of `count` tokens. -/
def FirstInside (implied : Bool) (count : Nat) (bits : List Bit) (bit : Bit) : Prop :=
  ∃ front back, bits = front ++ bit :: back ∧ bit.kind = .opening ∧ EnclosedBy implied count front ∧
    ∀ before other after, front = before ++ other :: after → other.kind = .opening → ¬EnclosedBy implied count before

section Texts
variable {text : String} {implied trim : Bool} {limit more stop : Nat} {bits : List Bit} {nodes : List Node}

/-- A token that is too deep is the first to be so. -/
theorem firstInside_of_tooDeep {position : Nat} (h : fault? limit implied stop bits = some ⟨.tooDeep limit, position⟩) :
    ∃ bit, bit.position = position ∧ FirstInside implied (limit + 1) bits bit := by
  rcases fault?_cases h with ⟨front, bit, back, mid, hs, hr, hn⟩ | ⟨last, -, he⟩
  · obtain ⟨hk, hd⟩ := next_eq_tooDeep hn
    have hstart := start_depth implied
    have hbool := implied.toNat_le
    obtain ⟨-, hle⟩ := depth_bounds hr (by omega) (by omega)
    have hdepth : mid.depth = limit + 1 := by omega
    refine ⟨bit, (position_next hn).symm, front, back, hs, hk, hdepth ▸ enclosedBy_depth hr, ?_⟩
    rintro before other after rfl ho hi
    -- An earlier marker was read, so that fewer tokens were open at it.
    obtain ⟨early, hb, hrest⟩ := run_append_eq_ok hr
    obtain ⟨next, hnext, -⟩ := run_cons_eq_ok hrest
    have := enclosedBy_depth hb
    unfold EnclosedBy at hi this
    rcases next_eq_ok hnext with ⟨-, -, hl, -⟩ | ⟨hc, -⟩ | ⟨⟨hc, -⟩, -⟩
    · omega
    · simp [ho] at hc
    · exact absurd ho hc
  · unfold early? at he
    split at he
    · cases he
    · split at he <;> cases he

theorem parse_of_within {enough : Nat} (h : parse text implied trim enough = .ok nodes)
    (hn : WithinAll limit 0 nodes) : parse text implied trim limit = .ok nodes := by
  obtain ⟨items, whole, rfl⟩ := parse_eq_ok_iff.mp h
  exact parse_eq_ok_iff.mpr ⟨items, whole.relimit ((withinAll_tidy _).mp hn), rfl⟩

theorem within_of_parse (h : parse text implied trim limit = .ok nodes) : WithinAll limit 0 nodes := by
  obtain ⟨items, whole, rfl⟩ := parse_eq_ok_iff.mp h
  exact (withinAll_tidy _).mpr whole.within

theorem parse_of_le (hl : limit ≤ more) (h : parse text implied trim limit = .ok nodes) :
    parse text implied trim more = .ok nodes :=
  parse_of_within h (WithinAll.mono hl nodes (within_of_parse h))

/-- A limit either is not met, or it is what the error tells. -/
theorem parse_limit (hl : limit ≤ more) : parse text implied trim limit = parse text implied trim more ∨
    ∃ position, fault? limit implied text.utf8ByteSize (scan text) = some ⟨.tooDeep limit, position⟩ := by
  cases h : parse text implied trim limit with
  | ok nodes => exact Or.inl (parse_of_le hl h).symm
  | error error =>
    obtain ⟨fault, hf, rfl⟩ := parse_eq_error_iff.mp h
    rcases fault?_limit hl with hsame | hdeep
    · exact Or.inl (parse_eq_error_iff.mpr ⟨fault, hsame.symm.trans hf, rfl⟩).symm
    · exact Or.inr hdeep

/-- A result that does not blame the limit stays under a higher one. A text with a tree under some limit has it under
    just those limits that the tree is within, and every other one is blamed for the first marker inside of one token
    more than it allows. -/
theorem parse_limit_exact (text : String) (implied trim : Bool) :
    (∀ limit more, limit ≤ more →
      (∀ error, parse text implied trim limit = .error error → ∀ count, error.root.cause ≠ .tooDeep count) →
      parse text implied trim more = parse text implied trim limit) ∧
    ∀ enough nodes, parse text implied trim enough = .ok nodes → ∀ limit,
      ((∃ result, parse text implied trim limit = .ok result) ↔ WithinAll limit 0 nodes) ∧
      (¬WithinAll limit 0 nodes → ∃ bit, FirstInside implied (limit + 1) (scan text) bit ∧
        parse text implied trim limit = .error (.wrap text (.fault ⟨.tooDeep limit, bit.position⟩))) := by
  refine ⟨fun limit more hl hroot => ?_, fun enough nodes h limit =>
    ⟨⟨?_, fun hn => ⟨nodes, parse_of_within h hn⟩⟩, ?_⟩⟩
  · rcases parse_limit hl with hsame | ⟨position, hdeep⟩
    · exact hsame.symm
    · exact absurd rfl (hroot _ (parse_eq_error_iff.mpr ⟨_, hdeep, rfl⟩) limit)
  · rintro ⟨result, hr⟩
    -- Under the higher of the two limits both trees are that of the text.
    have hresult := parse_of_le (Nat.le_max_left limit enough) hr
    have hnodes := parse_of_le (Nat.le_max_right limit enough) h
    cases hresult.symm.trans hnodes
    exact within_of_parse hr
  · intro hn
    have hl : limit ≤ enough := by
      by_contra hlt
      exact hn (WithinAll.mono (by omega) nodes (within_of_parse h))
    rcases parse_limit hl with hsame | ⟨position, hdeep⟩
    · exact absurd (within_of_parse (hsame.trans h)) hn
    · obtain ⟨bit, rfl, hfirst⟩ := firstInside_of_tooDeep hdeep
      exact ⟨bit, hfirst, parse_eq_error_iff.mpr ⟨_, hdeep, rfl⟩⟩

/-- Three tokens inside of each other: a limit of one is met by the innermost, a higher one is not. -/
theorem parse_limit_chain :
    parse "{{A:{{B:{{C}}}}}}" false false 5 =
        .ok [.token "A" (some [.token "B" (some [.token "C" none false]) false]) false] ∧
      parse "{{A:{{B:{{C}}}}}}" false false 1 =
        .error (.wrap "{{A:{{B:{{C}}}}}}" (.fault ⟨.tooDeep 1, 8⟩)) ∧
      FirstInside false 2 (scan "{{A:{{B:{{C}}}}}}") ⟨.opening, "\x7b\x7b", 8⟩ := by
  obtain ⟨same, deep⟩ := parse_limit_exact "{{A:{{B:{{C}}}}}}" false false
  have htwo : parse "{{A:{{B:{{C}}}}}}" false false 2 =
      .ok [.token "A" (some [.token "B" (some [.token "C" none false]) false]) false] := by decide +kernel
  obtain ⟨bit, hfirst, herror⟩ := (deep 2 _ htwo 1).2 (by decide)
  have hone : parse "{{A:{{B:{{C}}}}}}" false false 1 =
      .error (.wrap "{{A:{{B:{{C}}}}}}" (.fault ⟨.tooDeep 1, 8⟩)) := by
    decide +kernel
  have hposition : bit.position = 8 := by simpa using herror.symm.trans hone
  have hmem : bit ∈ scan "{{A:{{B:{{C}}}}}}" := by
    obtain ⟨front, back, hs, -⟩ := hfirst
    rw [hs]
    exact List.mem_append_right front List.mem_cons_self
  have only : ∀ other ∈ scan "{{A:{{B:{{C}}}}}}", other.position = 8 →
      other = ⟨.opening, "\x7b\x7b", 8⟩ := by decide
  exact ⟨(same 2 5 (by decide) (by simp [htwo])).trans htwo, hone, only bit hmem hposition ▸ hfirst⟩

end Texts

end Placeholder
