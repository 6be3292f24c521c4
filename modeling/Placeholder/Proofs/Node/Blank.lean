import Placeholder.Proofs.Node.Normal

/-! # White space that tidying cuts off

White space next to a token, or at an end that is trimmed, makes no difference to the tidy form of a sequence, whether
it is a literal of its own or falls to the literal beside it. -/

namespace Placeholder.Node

section Trim
variable {rule : Rule} {before after : Option Node} {w : String}

theorem trim_blank_append (h : rule.cutsAt before = true) (hw : Text.isBlank w = true) (after : Option Node)
    (s : String) : rule.trim before after (w ++ s) = rule.trim before after s := by
  simp only [Rule.trim, h, if_true, Text.trimStart_blank_append hw]

theorem trim_append_blank (h : rule.cutsAt after = true) (hw : Text.isBlank w = true) (before : Option Node)
    (s : String) : rule.trim before after (s ++ w) = rule.trim before after s := by
  have htrim : Text.trimEnd (Text.trimStart (s ++ w)) = Text.trimEnd (Text.trimStart s) := Text.trim_append_blank hw s
  simp only [Rule.trim, h, if_true]
  split
  · exact htrim
  · exact Text.trimEnd_append_blank hw s

theorem trim_empty (rule : Rule) (before after : Option Node) : rule.trim before after "" = "" := by
  have hs : Text.trimStart "" = "" := Text.trimStart_eq_empty_iff.mpr rfl
  have he : Text.trimEnd "" = "" := Text.trimEnd_eq_empty_iff.mpr rfl
  simp only [Rule.trim, hs, he, ite_self]

theorem trim_blank (h : rule.cutsAt before = true ∨ rule.cutsAt after = true) (hw : Text.isBlank w = true) :
    rule.trim before after w = "" := by
  rcases h with h | h
  · rw [← String.append_empty (s := w), trim_blank_append h hw, trim_empty]
  · rw [← String.empty_append (s := w), trim_append_blank h hw, trim_empty]

/-- A literal is dropped once nothing is left of its text. -/
def Rule.MayDrop (rule : Rule) (text : String) : Prop :=
  rule.atEnds = true ∨ text ≠ ""

theorem settle_some_literal (rule : Rule) (s t : String) (nodes : List Node) :
    settle rule (some (.literal s)) nodes = settle rule (some (.literal t)) nodes := by
  cases nodes with
  | nil => rfl
  | cons node rest =>
    cases node with
    | literal text => simp only [settle, Rule.trim, cutsAt_literal]
    | token | input => rfl

theorem settle_literal_congr {rest : List Node} {s t : String}
    (h : rule.trim before rest.head? s = rule.trim before rest.head? t) (hs : rule.MayDrop s) (ht : rule.MayDrop t) :
    settle rule before (.literal s :: rest) = settle rule before (.literal t :: rest) := by
  have hdrops : rule.drops s (rule.trim before rest.head? t) = rule.drops t (rule.trim before rest.head? t) := by
    rw [Bool.eq_iff_iff, drops_iff, drops_iff]
    exact and_congr_right fun _ => iff_of_true hs ht
  rw [settle, settle]
  rw [h, hdrops, settle_some_literal rule s t]

theorem settle_cons_congr {rest others : List Node} (s : String) (hh : rest.head? = others.head?)
    (h : settle rule (some (.literal s)) rest = settle rule (some (.literal s)) others) :
    settle rule before (.literal s :: rest) = settle rule before (.literal s :: others) := by
  rw [settle, settle]
  rw [hh, h]

theorem settle_blank_cons {rest : List Node} (hw : Text.isBlank w = true) (hd : rule.MayDrop w)
    (hcut : rule.cutsAt before = true ∨ rule.cutsAt rest.head? = true) (hrest : ∀ s, rest.head? ≠ some (.literal s)) :
    settle rule before (.literal w :: rest) = settle rule before rest := by
  rw [settle]
  rw [if_pos (drops_iff.mpr ⟨trim_blank hcut hw, hd⟩), settle_congr hrest]

end Trim

/-! ### Merged sequences -/

section Merge
variable {front nodes : List Node}

theorem merge_append_congr (front : List Node) {nodes others : List Node} (h : merge nodes = merge others) :
    merge (front ++ nodes) = merge (front ++ others) := by
  induction front with
  | nil => exact h
  | cons node front ih => exact merge_cons_congr node ih

/-- Merging does not change whether a sequence starts with a literal, nor what else it starts with. -/
theorem head_merge (h : ∀ s, nodes.head? ≠ some (.literal s)) : (merge nodes).head? = nodes.head? := by
  cases nodes with
  | nil => rfl
  | cons node rest =>
    cases node with
    | literal s => exact absurd rfl (h s)
    | token | input => rfl

/-- Nothing but a literal grows when a literal is put in front of it. -/
theorem merge_literal_cons (h : ∀ s, nodes.head? ≠ some (.literal s)) (t : String) :
    merge (.literal t :: nodes) = .literal t :: merge nodes := by
  rcases merge_literal_cases t nodes with ⟨more, others, hr, -⟩ | ⟨-, hm⟩
  · have hhead := head_merge h
    rw [hr] at hhead
    exact absurd hhead.symm (h more)
  · exact hm

/-- What a literal grows by does not depend on its text. -/
theorem exists_merge_literal (nodes : List Node) :
    ∃ more others, ∀ t, merge (.literal t :: nodes) = .literal (t ++ more) :: others := by
  rcases merge_literal_cases "" nodes with ⟨more, others, hr, -⟩ | ⟨hr, -⟩
  · exact ⟨more, others, fun t => by rw [merge, hr]⟩
  · refine ⟨"", merge nodes, fun t => ?_⟩
    rcases merge_literal_cases t nodes with ⟨more, others, hl, -⟩ | ⟨-, hm⟩
    · exact absurd (by rw [hl]; rfl) (hr more)
    · rw [hm, String.append_empty]

end Merge

/-! ### Inserted white space -/

section Insert
variable {rule : Rule} {w : String}

theorem Rule.MayDrop.append_left {s : String} (h : rule.MayDrop s) (t : String) : rule.MayDrop (t ++ s) :=
  h.imp id fun hs he => hs (by simp_all)

theorem Rule.MayDrop.append_right {s : String} (h : rule.MayDrop s) (t : String) : rule.MayDrop (s ++ t) :=
  h.imp id fun hs he => hs (by simp_all)

theorem head_ne_literal_of_cutsAt {nodes : List Node} (h : rule.cutsAt nodes.head? = true) (s : String) :
    nodes.head? ≠ some (.literal s) := by
  intro hs
  rw [hs, cutsAt_literal] at h
  cases h

section Back
variable {back : List Node} (hw : Text.isBlank w = true) (hd : rule.MayDrop w)
  (hback : ∀ s, back.head? = some (.literal s) → rule.MayDrop s)
include hw

include hd hback in
theorem settle_insert_nil {before : Option Node} (hcut : rule.cutsAt before = true ∨ rule.cutsAt back.head? = true) :
    settle rule before (merge (.literal w :: back)) = settle rule before (merge back) := by
  by_cases hl : ∃ s, back.head? = some (.literal s)
  · -- The white space falls to the literal, and is cut off at its start.
    obtain ⟨s, hs⟩ := hl
    have hbefore : rule.cutsAt before = true := hcut.resolve_right fun h => head_ne_literal_of_cutsAt h s hs
    have hdrop := hback s hs
    obtain ⟨rest, rfl⟩ := List.head?_eq_some_iff.mp hs
    obtain ⟨more, others, hm⟩ := exists_merge_literal rest
    rw [merge_literal_literal, hm, hm, String.append_assoc]
    exact settle_literal_congr (trim_blank_append hbefore hw _ _) ((hdrop.append_right more).append_left w)
      (hdrop.append_right more)
  · have hnone : ∀ s, back.head? ≠ some (.literal s) := not_exists.mp hl
    have hmerge := head_merge hnone
    rw [merge_literal_cons hnone]
    exact settle_blank_cons hw hd (by rwa [hmerge]) (by rwa [hmerge])

theorem settle_insert_literal {before : Option Node} {s : String} (hcut : rule.cutsAt back.head? = true)
    (hs : rule.MayDrop s) :
    settle rule before (merge (.literal s :: .literal w :: back)) =
      settle rule before (merge (.literal s :: back)) := by
  have hrest := head_ne_literal_of_cutsAt hcut
  rw [merge_literal_literal, merge_literal_cons hrest, merge_literal_cons hrest]
  have hmerge := head_merge hrest
  exact settle_literal_congr (trim_append_blank (by rwa [hmerge]) hw _ _) (hs.append_right w) hs

include hd hback in
/-- White space that stands next to a neighbour at which it is cut off. -/
theorem settle_insert (front : List Node) (before : Option Node)
    (hcut : rule.cutsAt (front.getLast?.or before) = true ∨ rule.cutsAt back.head? = true)
    (hfront : ∀ s, front.getLast? = some (.literal s) → rule.MayDrop s) :
    settle rule before (merge (front ++ .literal w :: back)) = settle rule before (merge (front ++ back)) := by
  match front with
  | [] => exact settle_insert_nil hw hd hback hcut
  | [node] =>
    rcases isRigid_or_literal node with hn | ⟨s, rfl⟩
    · have ih : settle rule (some node) (merge (.literal w :: back)) = settle rule (some node) (merge back) :=
        settle_insert_nil hw hd hback hcut
      simp only [List.singleton_append, merge_rigid hn, settle_rigid hn, ih]
    · exact settle_insert_literal hw (hcut.resolve_left (by simp [cutsAt_literal])) (hfront s rfl)
  | first :: second :: rest =>
    rw [List.getLast?_cons_cons] at hcut hfront
    have ih (other : Option Node) :=
      settle_insert (second :: rest) other (by simpa [List.getLast?_cons] using hcut) hfront
    rcases isRigid_or_literal first with hn | ⟨s, rfl⟩
    · simp only [List.cons_append (a := first), merge_rigid hn, settle_rigid hn, ih]
    · rcases isRigid_or_literal second with hn | ⟨t, rfl⟩
      · have hsecond (more : List Node) : ∀ s, (second :: more).head? ≠ some (.literal s) :=
          fun s hs => ne_literal_of_isRigid hn s (Option.some.inj hs)
        have hsame := ih (some (.literal s))
        simp only [List.cons_append, merge_literal_cons (hsecond _)] at hsame ⊢
        exact settle_cons_congr s (by simp [merge_rigid hn]) hsame
      · -- The two literals are as good as one.
        have hone := settle_insert (.literal (s ++ t) :: rest) before
        simp only [List.cons_append, merge_literal_literal] at hone ⊢
        cases rest with
        | nil =>
          refine hone (by simpa [cutsAt_literal] using hcut) fun u hu => ?_
          obtain rfl : s ++ t = u := by simpa using hu
          exact (hfront t rfl).append_left s
        | cons node rest => exact hone (by simpa using hcut) (by simpa using hfront)
termination_by front.length

end Back

end Insert

/-! ### The tidy form -/

section Tidy
variable {rule : Rule} {front back : List Node} {w s : String}

theorem tidy_insert (front back : List Node) (hw : Text.isBlank w = true) (hd : rule.MayDrop w)
    (hcut : rule.cutsAt front.getLast? = true ∨ rule.cutsAt back.head? = true)
    (hfront : ∀ s, front.getLast? = some (.literal s) → rule.MayDrop s)
    (hback : ∀ s, back.head? = some (.literal s) → rule.MayDrop s) :
    tidy rule (front ++ .literal w :: back) = tidy rule (front ++ back) :=
  settle_insert hw hd hback front none (by rwa [Option.or_none]) hfront

theorem tidy_append_blank (hw : Text.isBlank w = true) (hd : rule.MayDrop w) (hs : rule.MayDrop s)
    (hcut : rule.cutsAt back.head? = true) :
    tidy rule (front ++ .literal (s ++ w) :: back) = tidy rule (front ++ .literal s :: back) := by
  have hback : ∀ t, back.head? = some (.literal t) → rule.MayDrop t :=
    fun t ht => (head_ne_literal_of_cutsAt hcut t ht).elim
  have hinsert := tidy_insert (front ++ [.literal s]) back hw hd (Or.inr hcut) (by simpa using hs) hback
  simp only [List.append_assoc, List.singleton_append] at hinsert
  rw [← hinsert, tidy, tidy, merge_append_congr front (merge_literal_literal s w back)]

theorem tidy_blank_append (front : List Node) (hw : Text.isBlank w = true) (hd : rule.MayDrop w) (hs : rule.MayDrop s)
    (hcut : rule.cutsAt front.getLast? = true) :
    tidy rule (front ++ .literal (w ++ s) :: back) = tidy rule (front ++ .literal s :: back) := by
  have hfront : ∀ t, front.getLast? = some (.literal t) → rule.MayDrop t := by
    intro t ht
    rw [ht, cutsAt_literal] at hcut
    cases hcut
  have hinsert := tidy_insert front (.literal s :: back) hw hd (Or.inl hcut) hfront (by simpa using hs)
  rw [← hinsert, tidy, tidy, merge_append_congr front (merge_literal_literal w s back)]

/-- White space in front of a sequence whose ends are trimmed. -/
theorem tidy_blank_cons (ha : rule.atEnds = true) (hw : Text.isBlank w = true) (nodes : List Node) :
    tidy rule (.literal w :: nodes) = tidy rule nodes :=
  tidy_insert [] nodes hw (Or.inl ha) (Or.inl ha) nofun fun _ _ => Or.inl ha

end Tidy

end Placeholder.Node
