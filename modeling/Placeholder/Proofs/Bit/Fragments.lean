import Mathlib.Data.List.Chain
import Mathlib.Data.List.Infix
import Placeholder.Bit

/-! # Fragments

The markers of a text are found from the left: they are its leftmost ones that do not overlap. The fragments that this
gives are told apart from every other way to cut the same text: a literal holds no marker, no two literals stand side
by side, and no brace at the end of a literal makes a marker with the braces after it. -/

namespace Placeholder.Bit

/-- A piece of a text: what it stands for, and its characters. -/
abbrev Fragment := Kind × List Char

/-- Braces stand alone: no two of a kind side by side. -/
structure Unpaired (cs : List Char) : Prop where
  opening : ¬['{', '{'] <:+: cs
  closing : ¬['}', '}'] <:+: cs

/-- Characters without any marker. -/
structure Plain (cs : List Char) : Prop extends Unpaired cs where
  positional : ':' ∉ cs
  named : '|' ∉ cs

instance (cs : List Char) : Decidable (Unpaired cs) :=
  decidable_of_iff (¬['{', '{'] <:+: cs ∧ ¬['}', '}'] <:+: cs) ⟨fun ⟨ho, hc⟩ => ⟨ho, hc⟩, fun ⟨ho, hc⟩ => ⟨ho, hc⟩⟩

instance (cs : List Char) : Decidable (Plain cs) :=
  decidable_of_iff (Unpaired cs ∧ ':' ∉ cs ∧ '|' ∉ cs) ⟨fun ⟨h, hp, hn⟩ => ⟨h, hp, hn⟩, fun ⟨h, hp, hn⟩ => ⟨h, hp, hn⟩⟩

/-- The characters of a marker. -/
def Kind.marker : Kind → List Char
  | .literal => []
  | .opening => ['{', '{']
  | .closing => ['}', '}']
  | .positional => [':']
  | .named => ['|']

/-- A literal or a separator, which stand for themselves outside of a token. -/
def Textual (f : Fragment) : Prop :=
  f.1 ≠ .opening ∧ f.1 ≠ .closing

/-- The markers of two braces and the brace that they are made of. -/
def Kind.Doubles (kind : Kind) (c : Char) : Prop :=
  kind = .opening ∧ c = '{' ∨ kind = .closing ∧ c = '}'

/-- A literal is plain and not empty, and a marker has its own characters. -/
def Fits : Fragment → Prop
  | (.literal, cs) => cs ≠ [] ∧ Plain cs
  | (kind, cs) => cs = kind.marker

instance : DecidablePred Fits
  | (.literal, cs) => inferInstanceAs (Decidable (cs ≠ [] ∧ Plain cs))
  | (.opening, cs) => inferInstanceAs (Decidable (cs = Kind.opening.marker))
  | (.closing, cs) => inferInstanceAs (Decidable (cs = Kind.closing.marker))
  | (.positional, cs) => inferInstanceAs (Decidable (cs = Kind.positional.marker))
  | (.named, cs) => inferInstanceAs (Decidable (cs = Kind.named.marker))

/-- Two fragments that may follow each other: a literal ends with a marker, and not with a brace that would be
    taken for its start. -/
def Parts (a b : Fragment) : Prop :=
  a.1 = .literal → b.1 ≠ .literal ∧ (b.1 = .opening → a.2.getLast? ≠ some '{') ∧
    (b.1 = .closing → a.2.getLast? ≠ some '}')

/-- Fragments that fit and may follow each other. -/
structure Clean (fs : List Fragment) : Prop where
  fits : ∀ f ∈ fs, Fits f
  parts : fs.IsChain Parts

/-! ### Plain characters -/

theorem pair_infix_cons {x y c : Char} {cs : List Char} :
    [x, y] <:+: c :: cs ↔ (x = c ∧ cs.head? = some y) ∨ [x, y] <:+: cs := by
  rw [List.infix_cons_iff, List.cons_prefix_cons]
  cases cs with
  | nil => simp
  | cons d cs => simp [eq_comm]

theorem plain_nil : Plain [] :=
  ⟨⟨by simp, by simp⟩, by simp, by simp⟩

theorem plain_of_isInfix {cs ds : List Char} (h : Plain ds) (hi : cs <:+: ds) : Plain cs :=
  ⟨⟨fun ho => h.opening (ho.trans hi), fun hc => h.closing (hc.trans hi)⟩, fun hp => h.positional (hi.subset hp),
    fun hn => h.named (hi.subset hn)⟩

theorem unpaired_cons {c : Char} {cs : List Char} : Unpaired (c :: cs) ↔
    (c = '{' → cs.head? ≠ some '{') ∧ (c = '}' → cs.head? ≠ some '}') ∧ Unpaired cs := by
  constructor
  · rintro ⟨ho, hc⟩
    rw [pair_infix_cons, not_or] at ho hc
    exact ⟨fun h hh => ho.1 ⟨h.symm, hh⟩, fun h hh => hc.1 ⟨h.symm, hh⟩, ho.2, hc.2⟩
  · rintro ⟨ho, hc, h⟩
    constructor <;> rw [pair_infix_cons, not_or]
    · exact ⟨fun hh => ho hh.1.symm hh.2, h.opening⟩
    · exact ⟨fun hh => hc hh.1.symm hh.2, h.closing⟩

/-- Two characters that are no pair of braces. -/
def Single (c d : Char) : Prop :=
  (c = '{' → d ≠ '{') ∧ (c = '}' → d ≠ '}')

theorem unpaired_iff_isChain {cs : List Char} : Unpaired cs ↔ cs.IsChain Single := by
  induction cs with
  | nil => exact ⟨fun _ => .nil, fun _ => plain_nil.toUnpaired⟩
  | cons c cs ih =>
    rw [unpaired_cons, ih, List.isChain_cons, ← and_assoc]
    refine and_congr_left fun _ => ⟨fun h d hd => ⟨?_, ?_⟩, fun h => ⟨fun e hd => ?_, fun e hd => ?_⟩⟩
    · rintro e rfl
      exact h.1 e hd
    · rintro e rfl
      exact h.2 e hd
    · exact (h _ hd).1 e rfl
    · exact (h _ hd).2 e rfl

theorem unpaired_append {cs ds : List Char} :
    Unpaired (cs ++ ds) ↔ Unpaired cs ∧ Unpaired ds ∧ ∀ c ∈ cs.getLast?, ∀ d ∈ ds.head?, Single c d := by
  rw [unpaired_iff_isChain, unpaired_iff_isChain, unpaired_iff_isChain, List.isChain_append]

/-- A character with which no marker starts, with respect to the characters after it. -/
structure Ordinary (c : Char) (rest : List Char) : Prop where
  opening : c = '{' → rest.head? ≠ some '{'
  closing : c = '}' → rest.head? ≠ some '}'
  positional : c ≠ ':'
  named : c ≠ '|'

theorem Ordinary.congr {c : Char} {rest others : List Char} (h : Ordinary c rest) (he : others.head? = rest.head?) :
    Ordinary c others :=
  ⟨fun e => he ▸ h.opening e, fun e => he ▸ h.closing e, h.positional, h.named⟩

theorem plain_cons {c : Char} {cs : List Char} : Plain (c :: cs) ↔ Ordinary c cs ∧ Plain cs := by
  constructor
  · rintro ⟨h, hp, hn⟩
    obtain ⟨ho, hc, h⟩ := unpaired_cons.mp h
    rw [List.mem_cons, not_or] at hp hn
    exact ⟨⟨ho, hc, fun e => hp.1 e.symm, fun e => hn.1 e.symm⟩, h, hp.2, hn.2⟩
  · rintro ⟨⟨ho, hc, hp, hn⟩, h, hp', hn'⟩
    refine ⟨unpaired_cons.mpr ⟨ho, hc, h⟩, ?_, ?_⟩ <;> rw [List.mem_cons, not_or]
    · exact ⟨fun e => hp e.symm, hp'⟩
    · exact ⟨fun e => hn e.symm, hn'⟩

/-! ### Steps of the scan -/

theorem fragments_ordinary {c : Char} {rest : List Char} (h : Ordinary c rest) :
    fragments (c :: rest) = consChar c (fragments rest) := by
  rw [fragments]
  · rintro more rfl rfl
    exact h.opening rfl rfl
  · rintro more rfl rfl
    exact h.closing rfl rfl
  · exact h.positional
  · exact h.named

theorem fragments_marker {kind : Kind} (h : kind ≠ .literal) (rest : List Char) :
    fragments (kind.marker ++ rest) = (kind, kind.marker) :: fragments rest := by
  cases kind with
  | literal => exact absurd rfl h
  | opening | closing | positional | named => rw [Kind.marker]; simp [fragments]

theorem marker_ne_nil {kind : Kind} (h : kind ≠ .literal) : kind.marker ≠ [] := by
  cases kind with
  | literal => exact absurd rfl h
  | opening | closing | positional | named => simp [Kind.marker]

theorem consChar_literal (c : Char) (cs : List Char) (fs : List Fragment) :
    consChar c ((.literal, cs) :: fs) = (.literal, c :: cs) :: fs := rfl

theorem consChar_of_ne {c : Char} {fs : List Fragment} (h : ∀ f ∈ fs.head?, f.1 ≠ .literal) :
    consChar c fs = (.literal, [c]) :: fs := by
  cases fs with
  | nil => rfl
  | cons f fs =>
    obtain ⟨kind, cs⟩ := f
    cases kind with
    | literal => exact absurd rfl (h _ rfl)
    | opening | closing | positional | named => rfl

/-- What a text starts with: nothing, a marker, or a character in a literal. -/
theorem fragments_cases (cs : List Char) : cs = [] ∨
    (∃ (kind : Kind) (rest : List Char), kind ≠ .literal ∧ cs = kind.marker ++ rest) ∨
    ∃ c rest, cs = c :: rest ∧ Ordinary c rest := by
  cases cs with
  | nil => exact Or.inl rfl
  | cons c rest =>
    right
    by_cases hp : c = ':'
    · exact Or.inl ⟨.positional, rest, nofun, by rw [hp]; rfl⟩
    by_cases hn : c = '|'
    · exact Or.inl ⟨.named, rest, nofun, by rw [hn]; rfl⟩
    by_cases ho : c = '{' ∧ rest.head? = some '{'
    · obtain ⟨more, rfl⟩ := List.head?_eq_some_iff.mp ho.2
      exact Or.inl ⟨.opening, more, nofun, by rw [ho.1]; rfl⟩
    by_cases hc : c = '}' ∧ rest.head? = some '}'
    · obtain ⟨more, rfl⟩ := List.head?_eq_some_iff.mp hc.2
      exact Or.inl ⟨.closing, more, nofun, by rw [hc.1]; rfl⟩
    exact Or.inr ⟨c, rest, rfl, fun e h => ho ⟨e, h⟩, fun e h => hc ⟨e, h⟩, hp, hn⟩

/-- A law of all texts holds if it passes over a marker and over a character of a literal. -/
theorem fragments_induction {motive : List Char → Prop} (nil : motive [])
    (marker : ∀ (kind : Kind) (rest : List Char), kind ≠ .literal → motive rest → motive (kind.marker ++ rest))
    (char : ∀ (c : Char) (rest : List Char), Ordinary c rest → motive rest → motive (c :: rest)) (cs : List Char) :
    motive cs := by
  obtain hcs | ⟨kind, rest, hk, hcs⟩ | ⟨c, rest, hcs, ho⟩ := fragments_cases cs
  · rw [hcs]
    exact nil
  · rw [hcs]
    exact marker kind rest hk (fragments_induction nil marker char rest)
  · rw [hcs]
    exact char c rest ho (fragments_induction nil marker char rest)
termination_by cs.length
decreasing_by
  · rw [hcs, List.length_append]
    have := List.length_pos_iff.mpr (marker_ne_nil hk)
    omega
  · rw [hcs]
    exact Nat.lt_succ_self rest.length

/-! ### The scan is a clean cut -/

/-- The characters of fragments laid end to end. -/
def chars (fs : List Fragment) : List Char :=
  fs.flatMap Prod.snd

theorem chars_nil : chars [] = [] := rfl

theorem chars_cons (f : Fragment) (fs : List Fragment) : chars (f :: fs) = f.2 ++ chars fs := rfl

theorem chars_append (fs gs : List Fragment) : chars (fs ++ gs) = chars fs ++ chars gs :=
  List.flatMap_append

theorem chars_consChar (c : Char) (fs : List Fragment) : chars (consChar c fs) = c :: chars fs := by
  unfold consChar
  split <;> simp [chars]

theorem chars_fragments (cs : List Char) : chars (fragments cs) = cs := by
  induction cs using fragments_induction with
  | nil => rfl
  | marker kind rest hk ih => rw [fragments_marker hk, chars_cons, ih]
  | char c rest ho ih => rw [fragments_ordinary ho, chars_consChar, ih]

theorem fits_marker {kind : Kind} (h : kind ≠ .literal) {cs : List Char} : Fits (kind, cs) ↔ cs = kind.marker := by
  cases kind with
  | literal => exact absurd rfl h
  | opening | closing | positional | named => rfl

theorem fits_ne_nil {f : Fragment} (h : Fits f) : f.2 ≠ [] := by
  obtain ⟨kind, cs⟩ := f
  by_cases hk : kind = .literal
  · subst hk
    exact h.1
  · rw [(fits_marker hk).mp h]
    exact marker_ne_nil hk

theorem unpaired_of_fits {f : Fragment} (h : Fits f) (ht : Textual f) : Unpaired f.2 := by
  obtain ⟨kind, cs⟩ := f
  cases kind with
  | literal => exact h.2.toUnpaired
  | opening => exact absurd rfl ht.1
  | closing => exact absurd rfl ht.2
  | positional | named =>
    obtain rfl : cs = Kind.marker _ := h
    exact unpaired_cons.mpr ⟨nofun, nofun, plain_nil.toUnpaired⟩

theorem not_brace_of_separator {kind : Kind} (h : kind = .positional ∨ kind = .named) {c : Char}
    (hc : c ∈ kind.marker) : c ≠ '{' ∧ c ≠ '}' := by
  rcases h with rfl | rfl <;> obtain rfl := List.mem_singleton.mp hc <;> decide

/-- Of two fragments of text in a row one is a separator, so no two braces meet. -/
theorem single_of_parts {a b : Fragment} (ha : Fits a) (hb : Fits b) (ta : Textual a) (tb : Textual b)
    (h : Parts a b) : ∀ c ∈ a.2.getLast?, ∀ d ∈ b.2.head?, Single c d := by
  have separator {f : Fragment} (hf : Fits f) (t : Textual f) (hl : f.1 ≠ .literal) :
      ∀ c ∈ f.2, c ≠ '{' ∧ c ≠ '}' := by
    obtain ⟨kind, cs⟩ := f
    rw [fits_marker hl] at hf
    have hk : kind = .positional ∨ kind = .named := by
      cases kind with
      | literal => exact absurd rfl hl
      | opening => exact absurd rfl t.1
      | closing => exact absurd rfl t.2
      | positional => exact Or.inl rfl
      | named => exact Or.inr rfl
    exact fun c hc => not_brace_of_separator hk (hf ▸ hc)
  intro c hc d hd
  by_cases hl : a.1 = .literal
  · have hdb := separator hb tb (h hl).1 d (List.mem_of_mem_head? hd)
    exact ⟨fun _ => hdb.1, fun _ => hdb.2⟩
  · have hca := separator ha ta hl c (List.mem_of_mem_getLast? hc)
    exact ⟨fun e => absurd e hca.1, fun e => absurd e hca.2⟩

theorem head_chars {f : Fragment} {fs : List Fragment} (hk : f.1 ≠ .literal) (h : Fits f) :
    (chars (f :: fs)).head? = f.1.marker.head? := by
  obtain ⟨kind, cs⟩ := f
  rw [fits_marker hk] at h
  rw [chars_cons, h]
  cases kind with
  | literal => exact absurd rfl hk
  | opening | closing | positional | named => rfl

theorem clean_nil : Clean [] :=
  ⟨by simp, .nil⟩

theorem clean_cons {f : Fragment} {fs : List Fragment} :
    Clean (f :: fs) ↔ Fits f ∧ (∀ g ∈ fs.head?, Parts f g) ∧ Clean fs := by
  constructor
  · rintro ⟨hf, hp⟩
    rw [List.isChain_cons] at hp
    exact ⟨hf f List.mem_cons_self, hp.1, fun g hg => hf g (List.mem_cons_of_mem f hg), hp.2⟩
  · rintro ⟨hf, hp, h⟩
    refine ⟨fun g hg => ?_, List.isChain_cons.mpr ⟨hp, h.parts⟩⟩
    rcases List.mem_cons.mp hg with rfl | hg
    · exact hf
    · exact h.fits g hg

theorem Clean.of_append {fs gs : List Fragment} (h : Clean (fs ++ gs)) : Clean fs ∧ Clean gs :=
  ⟨⟨fun f hf => h.fits f (List.mem_append_left gs hf), h.parts.left_of_append⟩,
    ⟨fun f hf => h.fits f (List.mem_append_right fs hf), h.parts.right_of_append⟩⟩

theorem parts_of_marker {a b : Fragment} (h : a.1 ≠ .literal) : Parts a b :=
  fun e => absurd e h

/-- A literal and a marker go together unless the literal ends in the brace that the marker is made of. -/
theorem parts_literal_iff {cs : List Char} {kind : Kind} (hk : kind ≠ .literal) :
    Parts (.literal, cs) (kind, kind.marker) ↔ ∀ c, kind.Doubles c → cs.getLast? ≠ some c := by
  cases kind with
  | literal => exact absurd rfl hk
  | opening | closing | positional | named => simp [Parts, Kind.Doubles]

theorem clean_consChar {c : Char} {fs : List Fragment} (ho : Ordinary c (chars fs)) (h : Clean fs) :
    Clean (consChar c fs) := by
  cases fs with
  | nil => exact clean_cons.mpr ⟨⟨by simp, plain_cons.mpr ⟨ho, plain_nil⟩⟩, by simp, h⟩
  | cons f fs =>
    obtain ⟨hf, hp, hfs⟩ := clean_cons.mp h
    obtain ⟨kind, cs⟩ := f
    by_cases hk : kind = .literal
    · -- The literal grows at its front, so it still ends as before.
      subst hk
      obtain ⟨hne, hplain⟩ := hf
      rw [consChar_literal, clean_cons]
      have hhead : cs.head? = (chars ((.literal, cs) :: fs)).head? := by
        rw [chars_cons, List.head?_append_of_ne_nil _ hne]
      have hlast : (c :: cs).getLast? = cs.getLast? := List.getLast?_cons_of_ne_nil hne
      exact ⟨⟨by simp, plain_cons.mpr ⟨ho.congr hhead, hplain⟩⟩, fun g hg => by simpa only [Parts, hlast] using hp g hg,
        hfs⟩
    · -- The literal is new, and a brace in it would have made a marker with the one that follows.
      rw [consChar_of_ne (by simpa using hk), clean_cons]
      have hhead : (chars ((kind, cs) :: fs)).head? = kind.marker.head? := head_chars hk hf
      refine ⟨⟨by simp, plain_cons.mpr ⟨⟨by simp, by simp, ho.positional, ho.named⟩, plain_nil⟩⟩, ?_, h⟩
      rintro g hg -
      obtain rfl : (kind, cs) = g := by simpa using hg
      refine ⟨hk, ?_, ?_⟩
      · rintro rfl hc
        exact ho.opening (by simpa using hc) hhead
      · rintro rfl hc
        exact ho.closing (by simpa using hc) hhead

theorem clean_fragments (cs : List Char) : Clean (fragments cs) := by
  induction cs using fragments_induction with
  | nil => exact clean_nil
  | marker kind rest hk ih =>
    rw [fragments_marker hk, clean_cons]
    exact ⟨(fits_marker hk).mpr rfl, fun _ _ => parts_of_marker hk, ih⟩
  | char c rest ho ih =>
    rw [fragments_ordinary ho]
    exact clean_consChar (by rwa [chars_fragments]) ih

/-! ### A clean cut is the scan -/

theorem head_consChar (c : Char) (fs : List Fragment) : ∃ cs, (consChar c fs).head? = some (.literal, cs) := by
  unfold consChar
  split
  · next cs rest => exact ⟨c :: cs, rfl⟩
  · exact ⟨[c], rfl⟩

/-- A character that ends a literal: what follows is a marker that it does not join. -/
theorem ordinary_of_parts {c : Char} {cs : List Char} (hp : Plain [c])
    (h : ∀ f ∈ (fragments cs).head?, Parts (.literal, [c]) f) : Ordinary c cs := by
  obtain ⟨ho, -⟩ := plain_cons.mp hp
  rcases fragments_cases cs with rfl | ⟨kind, rest, hk, rfl⟩ | ⟨d, rest, rfl, hd⟩
  · exact ho
  · rw [fragments_marker hk] at h
    obtain ⟨-, hopening, hclosing⟩ := h _ rfl rfl
    refine ⟨fun e hhead => ?_, fun e hhead => ?_, ho.positional, ho.named⟩ <;> subst e
    · cases kind with
      | opening => exact hopening rfl rfl
      | literal => exact absurd rfl hk
      | closing | positional | named => simp [Kind.marker] at hhead
    · cases kind with
      | closing => exact hclosing rfl rfl
      | literal => exact absurd rfl hk
      | opening | positional | named => simp [Kind.marker] at hhead
  · rw [fragments_ordinary hd] at h
    obtain ⟨more, hhead⟩ := head_consChar d (fragments rest)
    exact absurd rfl (h _ hhead rfl).1

theorem fragments_literal_append {cs rest : List Char} (hne : cs ≠ []) (hp : Plain cs)
    (h : ∀ f ∈ (fragments rest).head?, Parts (.literal, cs) f) :
    fragments (cs ++ rest) = (.literal, cs) :: fragments rest := by
  induction cs with
  | nil => exact absurd rfl hne
  | cons c cs ih =>
    obtain ⟨ho, hcs⟩ := plain_cons.mp hp
    cases cs with
    | nil =>
      rw [List.singleton_append, fragments_ordinary (ordinary_of_parts hp h), consChar_of_ne fun f hf => (h f hf rfl).1]
    | cons d cs =>
      have hlast : (c :: d :: cs).getLast? = (d :: cs).getLast? := List.getLast?_cons_cons
      have hrest := ih (by simp) hcs fun f hf => by simpa only [Parts, hlast] using h f hf
      have hord : Ordinary c (d :: cs ++ rest) := ho.congr rfl
      rw [List.cons_append, fragments_ordinary hord, hrest, consChar_literal]

theorem fragments_of_clean {fs : List Fragment} (h : Clean fs) : fragments (chars fs) = fs := by
  induction fs with
  | nil => rfl
  | cons f fs ih =>
    obtain ⟨hf, hp, hfs⟩ := clean_cons.mp h
    obtain ⟨kind, cs⟩ := f
    rw [chars_cons]
    by_cases hk : kind = .literal
    · subst hk
      rw [fragments_literal_append hf.1 hf.2 (by rwa [ih hfs]), ih hfs]
    · rw [(fits_marker hk).mp hf, fragments_marker hk, ih hfs]

/-! ### The markers are the leftmost -/

/-- A literal of some characters, if there are any. -/
def literalOf (cs : List Char) : List Fragment :=
  if cs = [] then [] else [(.literal, cs)]

/-- A text cut at the leftmost markers that do not overlap: there is none, or what comes before the first one is a
    literal and what comes after it is cut in the same way. -/
inductive Leftmost : List Char → List Fragment → Prop where
  | plain {cs : List Char} (absent : ∀ kind : Kind, kind ≠ .literal → ¬kind.marker <:+: cs) :
      Leftmost cs (literalOf cs)
  | marker (front : List Char) {rest : List Char} {kind : Kind} {fs : List Fragment} (hk : kind ≠ .literal)
      (first : ∀ (other : Kind) (before after : List Char), other ≠ .literal →
        front ++ kind.marker ++ rest = before ++ other.marker ++ after → front.length ≤ before.length)
      (more : Leftmost rest fs) :
      Leftmost (front ++ kind.marker ++ rest) (literalOf front ++ (kind, kind.marker) :: fs)

section Leftmost
variable {c : Char} {cs : List Char} {fs : List Fragment}

/-- A character is ordinary if no marker starts with it. -/
theorem ordinary_iff : Ordinary c cs ↔ ∀ kind : Kind, kind ≠ .literal → ¬kind.marker <+: c :: cs := by
  constructor
  · rintro ⟨ho, hc, hp, hn⟩ kind hk hm
    cases kind with
    | literal => exact hk rfl
    | opening =>
      obtain ⟨rfl, rest, rfl⟩ := List.cons_prefix_cons.mp hm
      exact ho rfl rfl
    | closing =>
      obtain ⟨rfl, rest, rfl⟩ := List.cons_prefix_cons.mp hm
      exact hc rfl rfl
    | positional => exact hp (List.cons_prefix_cons.mp hm).1.symm
    | named => exact hn (List.cons_prefix_cons.mp hm).1.symm
  · intro h
    refine ⟨?_, ?_, ?_, ?_⟩
    · rintro rfl hh
      obtain ⟨rest, rfl⟩ := List.head?_eq_some_iff.mp hh
      exact h .opening nofun ⟨rest, rfl⟩
    · rintro rfl hh
      obtain ⟨rest, rfl⟩ := List.head?_eq_some_iff.mp hh
      exact h .closing nofun ⟨rest, rfl⟩
    · rintro rfl
      exact h .positional nofun ⟨cs, rfl⟩
    · rintro rfl
      exact h .named nofun ⟨cs, rfl⟩

theorem consChar_literalOf (c : Char) (cs : List Char) : consChar c (literalOf cs) = literalOf (c :: cs) := by
  unfold literalOf
  split
  · next hcs =>
    rw [hcs]
    rfl
  · rfl

theorem consChar_literalOf_append (h : ∀ f ∈ fs.head?, f.1 ≠ .literal) :
    consChar c (literalOf cs ++ fs) = literalOf (c :: cs) ++ fs := by
  by_cases hcs : cs = []
  · subst hcs
    exact consChar_of_ne h
  · simp [literalOf, hcs, consChar_literal]

theorem Leftmost.cons (h : Leftmost cs fs) (ho : Ordinary c cs) : Leftmost (c :: cs) (consChar c fs) := by
  rw [ordinary_iff] at ho
  cases h with
  | plain absent =>
    rw [consChar_literalOf]
    refine .plain fun kind hk hm => ?_
    rcases List.infix_cons_iff.mp hm with hm | hm
    · exact ho kind hk hm
    · exact absent kind hk hm
  | @marker front rest kind fs hk first more =>
    rw [consChar_literalOf_append (by simpa using hk)]
    refine .marker (c :: front) hk (fun other before after hother he => ?_) more
    cases before with
    | nil => exact absurd ⟨after, he.symm⟩ (ho other hother)
    | cons d before => exact Nat.succ_le_succ (first other before after hother (List.cons.inj he).2)

/-- The fragments of a text are those at its leftmost markers. -/
theorem leftmost_fragments (cs : List Char) : Leftmost cs (fragments cs) := by
  induction cs using fragments_induction with
  | nil => exact .plain fun kind hk hm => marker_ne_nil hk (List.infix_nil.mp hm)
  | marker kind rest hk ih =>
    rw [fragments_marker hk]
    exact .marker [] hk (fun _ _ _ _ _ => Nat.zero_le _) ih
  | char c rest ho ih =>
    rw [fragments_ordinary ho]
    exact ih.cons ho

/-- There is one way only to cut a text at its leftmost markers. -/
theorem leftmost_iff : Leftmost cs fs ↔ fs = fragments cs := by
  refine ⟨fun h => ?_, fun h => h ▸ leftmost_fragments cs⟩
  induction h with
  | @plain cs absent =>
    induction cs with
    | nil => rfl
    | cons c cs ih =>
      have ho : Ordinary c cs := ordinary_iff.mpr fun kind hk hm => absent kind hk hm.isInfix
      have hrest := ih fun kind hk hm => absent kind hk (List.infix_cons_iff.mpr (Or.inr hm))
      rw [fragments_ordinary ho, ← hrest, consChar_literalOf]
  | @marker front rest kind fs hk first more ih =>
    induction front with
    | nil =>
      rw [List.nil_append, fragments_marker hk, ← ih]
      rfl
    | cons c front ihf =>
      have ho : Ordinary c (front ++ kind.marker ++ rest) := by
        refine ordinary_iff.mpr fun other hother ⟨after, he⟩ => ?_
        exact Nat.not_succ_le_zero _ (first other [] after hother he.symm)
      have hrest := ihf fun other before after hother he =>
        Nat.le_of_succ_le_succ (first other (c :: before) after hother (congrArg (c :: ·) he))
      rw [List.cons_append, List.cons_append, fragments_ordinary ho, ← hrest,
        consChar_literalOf_append (by simpa using hk)]

end Leftmost

/-! ### What fragments show -/

section Show
variable {fs : List Fragment}

theorem snd_isInfix_chars {f : Fragment} (h : f ∈ fs) : f.2 <:+: chars fs := by
  obtain ⟨front, back, rfl⟩ := List.append_of_mem h
  exact ⟨chars front, chars back, by rw [chars_append, chars_cons, List.append_assoc]⟩

/-- Without pairs of braces there are no markers made of them. -/
theorem textual_of_unpaired {cs : List Char} (h : Unpaired cs) : ∀ f ∈ fragments cs, Textual f := by
  intro f hf
  have hi := snd_isInfix_chars hf
  have hfits := (clean_fragments cs).fits f hf
  rw [chars_fragments] at hi
  obtain ⟨kind, ds⟩ := f
  constructor <;> rintro rfl
  · obtain rfl : ds = Kind.opening.marker := hfits
    exact h.opening hi
  · obtain rfl : ds = Kind.closing.marker := hfits
    exact h.closing hi

theorem mem_consChar {f : Fragment} (c : Char) (h : f ∈ fs) (hk : f.1 ≠ .literal) : f ∈ consChar c fs := by
  unfold consChar
  split
  · next cs rest =>
    rcases List.mem_cons.mp h with rfl | hrest
    · exact absurd rfl hk
    · exact List.mem_cons_of_mem _ hrest
  · exact List.mem_cons_of_mem _ h

/-- A pair of opening braces is a marker, or the last of it is the first of one. -/
theorem exists_opening {cs : List Char} (h : ['{', '{'] <:+: cs) : ∃ f ∈ fragments cs, f.1 = .opening := by
  induction cs using fragments_induction with
  | nil => simp at h
  | marker kind rest hk ih =>
    rw [fragments_marker hk]
    by_cases ho : kind = .opening
    · exact ⟨_, List.mem_cons_self, ho⟩
    · have hrest : ['{', '{'] <:+: rest := by
        cases kind with
        | literal => exact absurd rfl hk
        | opening => exact absurd rfl ho
        | closing | positional | named => simpa [Kind.marker, pair_infix_cons] using h
      obtain ⟨f, hf, hkind⟩ := ih hrest
      exact ⟨f, List.mem_cons_of_mem _ hf, hkind⟩
  | char c rest ho ih =>
    rw [pair_infix_cons] at h
    have hrest : ['{', '{'] <:+: rest := h.resolve_left fun ⟨hc, hhead⟩ => ho.opening hc.symm hhead
    obtain ⟨f, hf, hkind⟩ := ih hrest
    rw [fragments_ordinary ho]
    exact ⟨f, mem_consChar c hf (by simp [hkind]), hkind⟩

theorem eq_nil_of_chars (h : ∀ f ∈ fs, Fits f) (he : chars fs = []) : fs = [] := by
  cases fs with
  | nil => rfl
  | cons f fs =>
    rw [chars_cons, List.append_eq_nil_iff] at he
    exact absurd he.1 (fits_ne_nil (h f List.mem_cons_self))

theorem eq_named_of_head (h : ∀ f ∈ fs, Fits f) (hh : (chars fs).head? = some '|') :
    ∃ others, fs = (.named, Kind.named.marker) :: others := by
  cases fs with
  | nil => cases hh
  | cons f fs =>
    obtain ⟨kind, cs⟩ := f
    have hf := h _ List.mem_cons_self
    rw [chars_cons, List.head?_append_of_ne_nil _ (fits_ne_nil hf)] at hh
    cases kind with
    | literal => exact absurd (List.mem_of_mem_head? hh) hf.2.named
    | named =>
      obtain rfl : cs = Kind.named.marker := hf
      exact ⟨fs, rfl⟩
    | opening | closing | positional =>
      obtain rfl : cs = Kind.marker _ := hf
      simp [Kind.marker] at hh

end Show

end Placeholder.Bit
