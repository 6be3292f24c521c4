import Placeholder.Proofs.Bit.Follows

/-! # Signs

The braces of a text in their order, where two that make a marker count as one sign. A cut of a text that has the
signs of the scan is the scan: at the first place where they differ, one has a marker and the other a brace of a
literal. -/

namespace Placeholder.Bit

/-- Whether a character is a brace. -/
def isBrace (c : Char) : Bool :=
  c == '{' || c == '}'

/-- The braces of a text without markers. -/
def lone (cs : List Char) : List (List Char) :=
  (cs.filter isBrace).map ([·])

/-- The signs of a fragment. -/
def signs : Fragment → List (List Char)
  | (.opening, cs) => [cs]
  | (.closing, cs) => [cs]
  | (_, cs) => lone cs

theorem lone_append (cs ds : List Char) : lone (cs ++ ds) = lone cs ++ lone ds := by
  simp [lone]

theorem signs_of_text {f : Fragment} (h : Textual f) : signs f = lone f.2 := by
  obtain ⟨kind, cs⟩ := f
  cases kind with
  | opening => exact absurd rfl h.1
  | closing => exact absurd rfl h.2
  | literal | positional | named => rfl

/-! ### The signs tell a cut -/

section Cut
variable {fs : List Fragment}

theorem signs_fragments_append {cs : List Char} {kind : Kind} (hp : Plain cs) (hk : kind ≠ .literal)
    (h : Parts (.literal, cs) (kind, kind.marker)) (rest : List Char) :
    (fragments (cs ++ (kind.marker ++ rest))).flatMap signs =
      lone cs ++ (signs (kind, kind.marker) ++ (fragments rest).flatMap signs) := by
  have hmarker := fragments_marker hk rest
  by_cases hcs : cs = []
  · subst hcs
    rw [List.nil_append, hmarker]
    rfl
  · rw [fragments_literal_append hcs hp, hmarker]
    · rfl
    · rw [hmarker]
      rintro f hf
      obtain rfl : (kind, kind.marker) = f := by simpa using hf
      exact h

/-- Where a literal runs into a marker, the scan finds the marker one character too early. -/
theorem signs_ne_of_joined {cs : List Char} {kind : Kind} {c : Char} (hp : Plain (cs ++ [c]))
    (hc : kind.Doubles c) (rest : List Char) (others : List (List Char)) :
    (fragments (cs ++ [c] ++ (kind.marker ++ rest))).flatMap signs ≠ lone (cs ++ [c]) ++ others := by
  have hk : kind ≠ .literal := by rcases hc with ⟨rfl, -⟩ | ⟨rfl, -⟩ <;> nofun
  have hmarker : kind.marker = [c, c] := by rcases hc with ⟨rfl, rfl⟩ | ⟨rfl, rfl⟩ <;> rfl
  have hsigns : signs (kind, kind.marker) = [[c, c]] := by rcases hc with ⟨rfl, rfl⟩ | ⟨rfl, rfl⟩ <;> rfl
  have hlone : lone [c] = [[c]] := by rcases hc with ⟨-, rfl⟩ | ⟨-, rfl⟩ <;> rfl
  obtain ⟨-, -, hjoint⟩ := unpaired_append.mp hp.toUnpaired
  have hparts : Parts (.literal, cs) (kind, kind.marker) := by
    rw [parts_literal_iff hk]
    rintro d hd hl
    have hsingle : Single d c := hjoint d hl c rfl
    rcases hc with ⟨rfl, rfl⟩ | ⟨rfl, rfl⟩ <;> rcases hd with ⟨hk, rfl⟩ | ⟨hk, rfl⟩ <;> cases hk
    · exact hsingle.1 rfl rfl
    · exact hsingle.2 rfl rfl
  have hplain : Plain cs := plain_of_isInfix hp (List.prefix_append cs [c]).isInfix
  have hshift : cs ++ [c] ++ (kind.marker ++ rest) = cs ++ (kind.marker ++ c :: rest) := by
    rw [hmarker]
    simp
  rw [hshift, signs_fragments_append hplain hk hparts, hsigns, lone_append, hlone, List.append_assoc]
  intro he
  have hcons := List.append_cancel_left he
  cases hcons

/-- A cut without literals in a row is clean if it has the signs of the scan. -/
theorem isChain_parts_of_signs (hf : ∀ f ∈ fs, Fits f) (hfollows : fs.IsChain (Follows False))
    (h : fs.flatMap signs = (fragments (chars fs)).flatMap signs) : fs.IsChain Parts := by
  induction fs with
  | nil => exact .nil
  | cons f fs ih =>
    obtain ⟨kind, cs⟩ := f
    rw [List.forall_mem_cons] at hf
    rw [List.isChain_cons] at hfollows ⊢
    rw [chars_cons, List.flatMap_cons] at h
    by_cases hk : kind = .literal
    · subst hk
      cases fs with
      | nil => exact ⟨nofun, .nil⟩
      | cons g rest =>
        obtain ⟨next, ds⟩ := g
        have hn : next ≠ .literal := (hfollows.1 _ rfl rfl).1
        obtain rfl : ds = next.marker := (fits_marker hn).mp (hf.2 _ List.mem_cons_self)
        by_cases hp : Parts (.literal, cs) (next, next.marker)
        · refine ⟨fun g hg => ?_, ih hf.2 hfollows.2 ?_⟩
          · obtain rfl : (next, next.marker) = g := by simpa using hg
            exact hp
          · rw [chars_cons, signs_fragments_append hf.1.2 hn hp] at h
            rw [chars_cons, fragments_marker hn]
            exact List.append_cancel_left h
        · -- Here the scan has a marker where the cut has the last brace of the literal.
          obtain ⟨c, hc, hl⟩ : ∃ c, next.Doubles c ∧ cs.getLast? = some c := by
            simpa [parts_literal_iff hn] using hp
          obtain ⟨front, rfl⟩ := List.getLast?_eq_some_iff.mp hl
          exact absurd h.symm (signs_ne_of_joined hf.1.2 hc (chars rest) _)
    · obtain rfl : cs = kind.marker := (fits_marker hk).mp hf.1
      rw [fragments_marker hk, List.flatMap_cons] at h
      exact ⟨fun g _ => parts_of_marker hk, ih hf.2 hfollows.2 (List.append_cancel_left h)⟩

end Cut

end Placeholder.Bit
