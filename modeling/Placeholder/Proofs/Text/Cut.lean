import Mathlib.Data.List.Infix
import Placeholder.Text.Basic

/-! # Pieces between separators

A list falls into pieces at the leftmost occurrence of the separator, and at the leftmost one in what comes after that.
A cut finds these pieces. Where the separator cannot reach over a joint, both sides of it may be cut on their own. -/

namespace Placeholder.Text

/-- A list and its pieces between occurrences of a separator, each the leftmost in what is left of the list. -/
inductive IsCut {α : Type} (sep : List α) : List α → List (List α) → Prop where
  | whole {xs : List α} (absent : ¬sep <:+: xs) : IsCut sep xs [xs]
  | first {piece rest : List α} {pieces : List (List α)}
      (leftmost : ∀ front back, piece ++ sep ++ rest = front ++ sep ++ back → piece.length ≤ front.length)
      (more : IsCut sep rest pieces) : IsCut sep (piece ++ sep ++ rest) (piece :: pieces)

section Pieces
variable {α : Type} {sep xs ys rest : List α} {pieces : List (List α)} {x : α}

theorem IsCut.ne_nil (h : IsCut sep xs pieces) : pieces ≠ [] := by
  cases h <;> simp

/-- The pieces and the separators between them make up the list. -/
theorem IsCut.intercalate_eq (h : IsCut sep xs pieces) : sep.intercalate pieces = xs := by
  induction h with
  | whole => exact List.intercalate_singleton
  | @first piece rest pieces leftmost more ih =>
    obtain ⟨next, others, rfl⟩ := List.exists_cons_of_ne_nil more.ne_nil
    rw [List.intercalate_cons_cons, ih]

theorem IsCut.isInfix (h : IsCut sep xs pieces) : ∀ piece ∈ pieces, piece <:+: xs := by
  induction h with
  | whole => simp
  | @first piece rest pieces leftmost more ih =>
    rw [List.forall_mem_cons]
    refine ⟨⟨[], sep ++ rest, by simp⟩, fun other ho => (ih other ho).trans ?_⟩
    exact (List.suffix_append (piece ++ sep) rest).isInfix

theorem IsCut.cons (h : IsCut sep xs pieces) (hx : ¬sep <+: x :: xs) : IsCut sep (x :: xs) (consFirst x pieces) := by
  cases h with
  | whole absent => exact .whole (by simp [List.infix_cons_iff, hx, absent])
  | @first piece rest pieces leftmost more =>
    have later : ∀ front back, x :: piece ++ sep ++ rest = front ++ sep ++ back → (x :: piece).length ≤ front.length := by
      intro front back he
      cases front with
      | nil => exact absurd ⟨back, he.symm⟩ hx
      | cons y front => exact Nat.succ_le_succ (leftmost front back (List.cons.inj he).2)
    exact .first later more

theorem consFirst_append (h : pieces ≠ []) (x : α) (others : List (List α)) :
    consFirst x (pieces ++ others) = consFirst x pieces ++ others := by
  obtain ⟨piece, pieces, rfl⟩ := List.exists_cons_of_ne_nil h
  rfl

/-- A separator does not reach over a joint after which comes nothing that stands in it. -/
theorem isPrefix_of_append (h : sep <+: xs ++ ys) (hy : ∀ y ∈ ys.head?, y ∉ sep) : sep <+: xs := by
  rcases Nat.le_total sep.length xs.length with hl | hl
  · exact List.prefix_of_prefix_length_le h (List.prefix_append xs ys) hl
  · obtain ⟨more, rfl⟩ := List.prefix_of_prefix_length_le (List.prefix_append xs ys) h hl
    rw [List.prefix_append_right_inj] at h
    cases more with
    | nil => simp
    | cons y more =>
      obtain ⟨tail, rfl⟩ := h
      exact absurd (List.mem_append_right xs List.mem_cons_self) (hy y rfl)

/-- A law of all lists holds if it passes over a separator and over an element with which none starts. -/
theorem cut_induction (h : sep ≠ []) {motive : List α → Prop} (nil : motive [])
    (separator : ∀ rest, motive rest → motive (sep ++ rest))
    (cons : ∀ x xs, ¬sep <+: x :: xs → motive xs → motive (x :: xs)) (xs : List α) : motive xs := by
  match xs with
  | [] => exact nil
  | x :: xs =>
    by_cases hx : sep <+: x :: xs
    · obtain ⟨rest, hr⟩ := hx
      rw [← hr]
      exact separator rest (cut_induction h nil separator cons rest)
    · exact cons x xs hx (cut_induction h nil separator cons xs)
termination_by xs.length
decreasing_by
  · have hlength := congrArg List.length hr
    have := List.length_pos_iff.mpr h
    simp at hlength ⊢
    omega
  · simp

end Pieces

theorem cut_nil {α : Type} [BEq α] (sep : List α) : cut sep [] = [[]] := by
  rw [cut]

section Cut
variable {α : Type} [BEq α] [LawfulBEq α] {sep xs ys rest : List α} {pieces : List (List α)} {x : α}

theorem occurs_iff : occurs sep xs = true ↔ sep <:+: xs := by
  induction xs with
  | nil => simp [occurs]
  | cons x xs ih => simp [occurs, ih, List.infix_cons_iff]

theorem cut_separator (h : sep ≠ []) (rest : List α) : cut sep (sep ++ rest) = [] :: cut sep rest := by
  obtain ⟨s, sep, rfl⟩ := List.exists_cons_of_ne_nil h
  rw [List.cons_append, cut, if_pos (by simp)]
  simp

theorem cut_cons (h : ¬sep <+: x :: xs) : cut sep (x :: xs) = consFirst x (cut sep xs) := by
  rw [cut, if_neg (by simp [h])]

theorem isCut_cut (h : sep ≠ []) (xs : List α) : IsCut sep xs (cut sep xs) := by
  induction xs using cut_induction h with
  | nil =>
    rw [cut_nil]
    exact .whole (by simpa using h)
  | separator rest ih =>
    rw [cut_separator h]
    have leftmost : ∀ front back, [] ++ sep ++ rest = front ++ sep ++ back → ([] : List α).length ≤ front.length :=
      fun front _ _ => Nat.zero_le front.length
    exact .first leftmost ih
  | cons x xs hx ih =>
    rw [cut_cons hx]
    exact ih.cons hx

theorem cut_of_absent (h : ¬sep <:+: xs) : cut sep xs = [xs] := by
  induction xs with
  | nil => exact cut_nil sep
  | cons x xs ih =>
    rw [List.infix_cons_iff, not_or] at h
    rw [cut_cons h.1, ih h.2]
    rfl

theorem cut_of_leftmost {piece : List α} (h : sep ≠ [])
    (leftmost : ∀ front back, piece ++ sep ++ rest = front ++ sep ++ back → piece.length ≤ front.length) :
    cut sep (piece ++ sep ++ rest) = piece :: cut sep rest := by
  induction piece with
  | nil => exact cut_separator h rest
  | cons x piece ih =>
    have hx : ¬sep <+: x :: (piece ++ sep ++ rest) := by
      rintro ⟨back, hb⟩
      exact Nat.not_succ_le_zero _ (leftmost [] back hb.symm)
    have ih := ih fun front back he => Nat.le_of_succ_le_succ (leftmost (x :: front) back (congrArg (x :: ·) he))
    rw [List.cons_append, List.cons_append, cut_cons hx, ih]
    rfl

/-- There is one way only to cut a list. -/
theorem isCut_iff (h : sep ≠ []) : IsCut sep xs pieces ↔ pieces = cut sep xs := by
  refine ⟨fun hc => ?_, fun hc => hc ▸ isCut_cut h xs⟩
  induction hc with
  | whole absent => exact (cut_of_absent absent).symm
  | first leftmost more ih => rw [cut_of_leftmost h leftmost, ih]

theorem cut_ne_nil (h : sep ≠ []) (xs : List α) : cut sep xs ≠ [] :=
  (isCut_cut h xs).ne_nil

/-- At a joint that no separator reaches over, the last piece before it and the first after it are one. -/
theorem exists_cut_append (h : sep ≠ []) (xs : List α) : ∃ front last, cut sep xs = front ++ [last] ∧
    ∀ ys first more, (∀ y ∈ ys.head?, y ∉ sep) → cut sep ys = first :: more →
      cut sep (xs ++ ys) = front ++ (last ++ first) :: more := by
  induction xs using cut_induction h with
  | nil => exact ⟨[], [], cut_nil sep, fun ys first more _ hy => by simpa using hy⟩
  | separator rest ih =>
    obtain ⟨front, last, hr, happend⟩ := ih
    refine ⟨[] :: front, last, by rw [cut_separator h, hr]; rfl, fun ys first more hy hc => ?_⟩
    rw [List.append_assoc, cut_separator h, happend ys first more hy hc]
    rfl
  | cons x xs hx ih =>
    obtain ⟨front, last, hr, happend⟩ := ih
    have step (ys : List α) (hy : ∀ y ∈ ys.head?, y ∉ sep) :
        cut sep (x :: xs ++ ys) = consFirst x (cut sep (xs ++ ys)) :=
      cut_cons fun hp => hx (isPrefix_of_append hp hy)
    rw [cut_cons hx, hr]
    cases front with
    | nil =>
      refine ⟨[], x :: last, rfl, fun ys first more hy hc => ?_⟩
      rw [step ys hy, happend ys first more hy hc]
      rfl
    | cons piece front =>
      refine ⟨(x :: piece) :: front, last, rfl, fun ys first more hy hc => ?_⟩
      rw [step ys hy, happend ys first more hy hc]
      rfl

/-- A separator of one element cuts the lists around it as if each stood alone. -/
theorem cut_append_cons (x : α) (xs ys : List α) : cut [x] (xs ++ x :: ys) = cut [x] xs ++ cut [x] ys := by
  have hsep : [x] ≠ [] := List.cons_ne_nil x []
  induction xs with
  | nil =>
    rw [cut_nil]
    exact cut_separator hsep ys
  | cons y xs ih =>
    by_cases hy : x = y
    · subst hy
      have hfirst (zs : List α) : cut [x] (x :: zs) = [] :: cut [x] zs := cut_separator hsep zs
      rw [List.cons_append, hfirst, hfirst, ih]
      rfl
    · have hfirst (zs : List α) : ¬[x] <+: y :: zs := by simpa using hy
      rw [List.cons_append, cut_cons (hfirst _), cut_cons (hfirst _), ih, consFirst_append (cut_ne_nil hsep xs)]

/-- Pieces without the separator are found again between separators, after those of the first one. -/
theorem cut_intercalate {x : α} {pieces : List (List α)} (h : ∀ piece ∈ pieces, x ∉ piece) (first : List α) :
    cut [x] ([x].intercalate (first :: pieces)) = cut [x] first ++ pieces := by
  induction pieces generalizing first with
  | nil => rw [List.intercalate_singleton, List.append_nil]
  | cons piece pieces ih =>
    rw [List.forall_mem_cons] at h
    have habsent : ¬[x] <:+: piece := by
      rw [List.singleton_infix_iff]
      exact h.1
    rw [List.intercalate_cons_cons, List.append_assoc, List.singleton_append, cut_append_cons, ih h.2,
      cut_of_absent habsent, List.singleton_append]

theorem cut_map {β : Type} [BEq β] [LawfulBEq β] {f : α → β} (hf : Function.Injective f) (h : sep ≠ [])
    (xs : List α) : cut (sep.map f) (xs.map f) = (cut sep xs).map (List.map f) := by
  have hmap : sep.map f ≠ [] := by simpa using h
  induction xs using cut_induction h with
  | nil => simp [cut_nil]
  | separator rest ih => rw [List.map_append, cut_separator hmap, cut_separator h, ih, List.map_cons, List.map_nil]
  | cons x xs hx ih =>
    have hfx : ¬sep.map f <+: f x :: xs.map f := by
      rw [← List.map_cons, List.prefix_map_iff_of_injective hf]
      exact hx
    obtain ⟨first, more, hc⟩ := List.exists_cons_of_ne_nil (cut_ne_nil h xs)
    rw [List.map_cons, cut_cons hfx, cut_cons hx, ih, hc]
    rfl

end Cut

theorem cutText_intercalate {delimiter : String} {c : Char} {pieces : List String} (hd : delimiter.toList = [c])
    (h : ∀ piece ∈ pieces, c ∉ piece.toList) (first : String) :
    cutText delimiter (delimiter.intercalate (first :: pieces)) = cutText delimiter first ++ pieces := by
  have hpieces : ∀ piece ∈ pieces.map String.toList, c ∉ piece := by
    intro piece hp
    obtain ⟨text, ht, rfl⟩ := List.mem_map.mp hp
    exact h text ht
  rw [cutText, cutText, String.toList_intercalate, hd, List.map_cons, cut_intercalate hpieces, List.map_append,
    List.map_map]
  simp [Function.comp_def]

end Placeholder.Text
