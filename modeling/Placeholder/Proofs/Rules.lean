import Placeholder.Proofs.Accepted
import Placeholder.Proofs.Node.Blank

/-! # Stronger rules

One rule is stronger than another if it cuts white space off wherever the other does. What the weaker rule has cut off or
dropped the stronger one would have cut off or dropped as well, and literals that are left have the same neighbours as
before. So tidying by the stronger rule gives the same after tidying by the weaker one as without it, and what a text gives
under the weaker rule is enough to tell what it gives under the stronger one. -/

namespace Placeholder
open Node

namespace Node

instance : LE Rule where
  le weak strong := weak.atTokens ≤ strong.atTokens ∧ weak.atEnds ≤ strong.atEnds

instance (weak strong : Rule) : Decidable (weak ≤ strong) :=
  inferInstanceAs (Decidable (weak.atTokens ≤ strong.atTokens ∧ weak.atEnds ≤ strong.atEnds))

section Order
variable {weak strong rule : Rule} {before after neighbour : Option Node} {nodes rest : List Node} {text : String}

theorem cutsAt_of_le (h : weak ≤ strong) (hc : weak.cutsAt neighbour = true) : strong.cutsAt neighbour = true := by
  cases neighbour with
  | none => exact h.2 hc
  | some node =>
    simp only [Rule.cutsAt, Bool.and_eq_true] at hc ⊢
    exact ⟨h.1 hc.1, hc.2⟩

/-! ### One literal -/

/-- What a rule cuts off a literal is white space, on the sides where it cuts. -/
theorem exists_trim (rule : Rule) (before after : Option Node) (text : String) :
    ∃ front back, text = front ++ rule.trim before after text ++ back ∧
      (front = "" ∨ rule.cutsAt before = true ∧ Text.isBlank front = true) ∧
      (back = "" ∨ rule.cutsAt after = true ∧ Text.isBlank back = true) := by
  have hstart : ∃ front, text = front ++ (if rule.cutsAt before then Text.trimStart text else text) ∧
      (front = "" ∨ rule.cutsAt before = true ∧ Text.isBlank front = true) := by
    split
    · next hc =>
      obtain ⟨front, hfront, ht⟩ := Text.exists_trimStart text
      exact ⟨front, ht, Or.inr ⟨hc, hfront⟩⟩
    · exact ⟨"", String.empty_append.symm, Or.inl rfl⟩
  obtain ⟨front, htext, hfront⟩ := hstart
  unfold Rule.trim
  dsimp only
  split
  · next hc =>
    obtain ⟨back, hback, ht⟩ := Text.exists_trimEnd (if rule.cutsAt before then Text.trimStart text else text)
    refine ⟨front, back, ?_, hfront, Or.inr ⟨hc, hback⟩⟩
    rw [String.append_assoc, ← ht, ← htext]
  · refine ⟨front, "", ?_, hfront, Or.inl rfl⟩
    rw [String.append_empty, ← htext]

/-- What the weaker rule cuts off a literal the stronger one cuts off in any case. -/
theorem trim_of_le (h : weak ≤ strong) (before after : Option Node) (text : String) :
    strong.trim before after (weak.trim before after text) = strong.trim before after text := by
  obtain ⟨front, back, htext, hfront, hback⟩ := exists_trim weak before after text
  generalize weak.trim before after text = kept at htext ⊢
  have hend : strong.trim before after (front ++ kept ++ back) = strong.trim before after (front ++ kept) := by
    rcases hback with rfl | ⟨hc, hback⟩
    · rw [String.append_empty]
    · exact trim_append_blank (cutsAt_of_le h hc) hback before _
  rw [htext, hend]
  rcases hfront with rfl | ⟨hc, hfront⟩
  · rw [String.empty_append]
  · exact (trim_blank_append (cutsAt_of_le h hc) hfront after kept).symm

/-- A literal that the weaker rule drops is dropped by the stronger one. -/
theorem settle_of_drops (h : weak ≤ strong) (hd : weak.drops text (weak.trim before rest.head? text) = true) :
    settle strong before (.literal text :: rest) = settle strong (some (.literal text)) rest := by
  obtain ⟨hkept, hmay⟩ := drops_iff.mp hd
  have hempty : strong.trim before rest.head? text = "" := by
    rw [← trim_of_le h, hkept, trim_empty]
  rw [settle]
  rw [if_pos (drops_iff.mpr ⟨hempty, hmay.imp_left h.2⟩)]

/-- A literal that the weaker rule keeps is as good as before to the stronger one. -/
theorem settle_of_kept (h : weak ≤ strong) (hd : weak.drops text (weak.trim before rest.head? text) = false) :
    settle strong before (.literal (weak.trim before rest.head? text) :: rest) =
      settle strong before (.literal text :: rest) := by
  by_cases htext : text = ""
  · rw [htext, trim_empty]
  · have hkept : weak.trim before rest.head? text ≠ "" := by
      intro hempty
      rw [drops_iff.mpr ⟨hempty, Or.inr htext⟩] at hd
      cases hd
    exact settle_literal_congr (trim_of_le h before rest.head? text) (Or.inr hkept) (Or.inr htext)

/-! ### Sequences -/

theorem settle_settle (h : weak ≤ strong) (hm : Merged nodes) (before : Option Node) :
    settle strong before (settle weak before nodes) = settle strong before nodes := by
  induction nodes generalizing before with
  | nil => rfl
  | cons node rest ih =>
    rcases isRigid_or_literal node with hn | ⟨text, rfl⟩
    · rw [settle_rigid hn, settle_rigid hn, settle_rigid hn, ih ((merged_rigid hn).mp hm)]
    · obtain ⟨alone, hrest⟩ := hm
      have hhead := head_settle alone weak (some (.literal text))
      have ih := ih hrest (some (.literal text))
      rcases settle_literal_cases weak before text rest with ⟨hd, hs⟩ | ⟨hd, hs⟩ <;> rw [hs]
      · -- What came after the literal is no literal, so that it does not matter what it now comes after.
        rw [settle_congr (by rwa [hhead]) strong before (some (.literal text)), ih, settle_of_drops h hd]
      · rw [← hhead] at hd ⊢
        rw [settle_of_kept h hd, settle_cons_congr text hhead ih]

theorem tidy_tidy (h : weak ≤ strong) (nodes : List Node) : tidy strong (tidy weak nodes) = tidy strong nodes := by
  have hmerged : Merged (tidy weak nodes) := merged_of_normal (normal_tidy weak nodes)
  rw [tidy.eq_def strong, merge_of_merged hmerged, tidy, tidy, settle_settle h (merged_merge nodes)]

end Order

end Node

/-! ### Texts under rules -/

section Texts
variable {weak strong : Rule}

/-- What a text gives under a rule is what it gives under a weaker one, tidied. -/
theorem map_parseUnder (h : weak ≤ strong) (limit : Nat) (implied : Bool) (text : String) :
    (parseUnder weak limit implied text).map (tidy strong) = parseUnder strong limit implied text := by
  cases hw : parseUnder weak limit implied text with
  | ok nodes =>
    obtain ⟨items, whole, rfl⟩ := parseUnder_eq_ok_iff.mp hw
    exact (parseUnder_eq_ok_iff.mpr ⟨items, whole, tidy_tidy h items⟩).symm
  | error error =>
    exact (parseUnder_eq_error_iff.mpr (parseUnder_eq_error_iff.mp hw)).symm

/-- Tidying by a rule undoes nothing of what it would have done without having tidied by a weaker one before. So the nodes
    around which a text is split are, once tidied, those that are parsed, and parsed nodes are, once their ends are
    trimmed, those of the trimmed text. -/
theorem tidy_absorbs (h : weak ≤ strong) :
    (∀ nodes, tidy strong (tidy weak nodes) = tidy strong nodes) ∧
      ∀ text limit implied,
        (parseUnder weak limit implied text).map (tidy strong) = parseUnder strong limit implied text ∧
        (∀ trim, (parseUnder ⟨false, false⟩ limit implied text).map (tidy ⟨true, trim⟩) =
          parse text implied trim limit) ∧
        (parse text implied false limit).map (tidy ⟨true, true⟩) = parse text implied true limit := by
  have hmerged (trim : Bool) : (⟨false, false⟩ : Rule) ≤ ⟨true, trim⟩ := ⟨Bool.false_le _, Bool.false_le _⟩
  have huntrimmed : (⟨true, false⟩ : Rule) ≤ ⟨true, true⟩ := by decide
  refine ⟨tidy_tidy h, ?_⟩
  intro text limit implied
  exact ⟨map_parseUnder h limit implied text, fun trim => map_parseUnder (hmerged trim) limit implied text,
    map_parseUnder huntrimmed limit implied text⟩

/-- White space that the weaker rule leaves before an input, and white space that it drops at the end. -/
theorem tidy_absorbs_ends : (⟨true, false⟩ : Rule) ≤ ⟨true, true⟩ ∧
    tidy ⟨true, false⟩ [.literal " ", .input [], .literal "a ", .token "B" none false, .literal " "] =
      [.literal " ", .input [], .literal "a", .token "B" none false] ∧
    tidy ⟨true, true⟩ [.literal " ", .input [], .literal "a", .token "B" none false] =
      tidy ⟨true, true⟩ [.literal " ", .input [], .literal "a ", .token "B" none false, .literal " "] := by
  have hle : (⟨true, false⟩ : Rule) ≤ ⟨true, true⟩ := by decide
  have hweak : tidy ⟨true, false⟩ [.literal " ", .input [], .literal "a ", .token "B" none false, .literal " "] =
      [.literal " ", .input [], .literal "a", .token "B" none false] := by decide
  refine ⟨hle, hweak, ?_⟩
  rw [← hweak]
  exact (tidy_absorbs hle).1 _

end Texts

end Placeholder
