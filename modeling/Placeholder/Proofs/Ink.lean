import Placeholder.Proofs.RoundTrip

/-! # What reading and writing keep

A text that is read and written back is the same but for white space, and but for one thing: where named arguments come
right after the positional separator of a token, the separator is left out, since they bring their own. Written inputs
start with a character that is no white space, so that their ink, which is the ink of their bits, tells whether they are
named. -/

namespace Placeholder
open Bit Node Grammar Stage

/-! ### Ink -/

namespace Text
variable {s : String}

/-- Whether a character is not white space. -/
def shows (c : Char) : Bool :=
  !isBlankChar c

/-- The characters of a text that are not white space. -/
def ink (s : String) : List Char :=
  s.toList.filter shows

theorem shows_eq_false {c : Char} (h : isBlankChar c = true) : shows c = false := by
  rw [shows, h]
  rfl

theorem ink_append (s t : String) : ink (s ++ t) = ink s ++ ink t := by
  rw [ink, String.toList_append, List.filter_append]
  rfl

theorem ink_trimStart (s : String) : ink (trimStart s) = ink s := by
  rw [ink, toList_trimStart, filter_dropBlanks fun _ => shows_eq_false, ← ink]

theorem ink_trimEnd (s : String) : ink (trimEnd s) = ink s := by
  rw [ink, toList_trimEnd, filter_dropBlanksRight fun _ => shows_eq_false, ← ink]

theorem ink_trim (s : String) : ink (trim s) = ink s := by
  rw [trim, ink_trimEnd, ink_trimStart]

theorem ink_eq_nil_iff : ink s = [] ↔ isBlank s = true := by
  simp [ink, shows, isBlank, List.filter_eq_nil_iff]

theorem head_ink (h : StartsClean s) : (ink s).head? = s.toList.head? := by
  unfold ink
  unfold StartsClean at h
  cases hs : s.toList with
  | nil => rfl
  | cons c cs =>
    rw [hs] at h
    have hc : shows c = true := by
      rw [shows, h c rfl]
      rfl
    rw [List.filter_cons_of_pos hc]
    rfl

end Text

open Text

/-! ### Bits without idle separators -/

/-- What may come after a bit, by its kind alone. -/
def Stage.Phase.after (phase : Phase) (bit : Bit) : Phase :=
  match phase, bit.kind with
  | _, .opening => .name
  | .name, .literal => .input
  | _, _ => .content

namespace Bit

/-- Named arguments come next, perhaps after white space. -/
def NamedNext : List Bit → Prop
  | [] => False
  | bit :: rest => bit.kind = .named ∨
    bit.kind = .literal ∧ Text.isBlank bit.text = true ∧ ∃ next ∈ rest.head?, next.kind = .named

instance : DecidablePred NamedNext
  | [] => .isFalse id
  | bit :: rest => inferInstanceAs (Decidable (bit.kind = .named ∨
      bit.kind = .literal ∧ Text.isBlank bit.text = true ∧ ∃ next ∈ rest.head?, next.kind = .named))

/-- The bits without each positional separator that comes right after the name of a token and before named
    arguments. -/
def withoutIdle : Phase → List Bit → List Bit
  | _, [] => []
  | phase, bit :: rest =>
    if phase = .input ∧ bit.kind = .positional ∧ NamedNext rest then withoutIdle .content rest
    else bit :: withoutIdle (phase.after bit) rest

/-- The ink of bits, which come when `phase` is what may come next. -/
def inkFrom (phase : Phase) (bits : List Bit) : List Char :=
  ink (joined (withoutIdle phase bits))

section InkFrom
variable {phase : Phase} {bit : Bit} {bits rest : List Bit}

theorem inkFrom_nil (phase : Phase) : inkFrom phase [] = [] := rfl

theorem inkFrom_cons {next : Phase} (h : phase ≠ .input ∨ bit.kind ≠ .positional) (hn : phase.after bit = next) :
    inkFrom phase (bit :: rest) = ink bit.text ++ inkFrom next rest := by
  have hkept : ¬(phase = .input ∧ bit.kind = .positional ∧ NamedNext rest) := by
    rintro ⟨hp, hk, -⟩
    exact h.elim (absurd hp) (absurd hk)
  rw [inkFrom, withoutIdle, if_neg hkept, joined_cons, ink_append, hn]
  rfl

theorem inkFrom_text (h : IsText bit) : inkFrom .content (bit :: rest) = ink bit.text ++ inkFrom .content rest := by
  refine inkFrom_cons (Or.inl nofun) ?_
  obtain ⟨ho, hc⟩ := h
  unfold Phase.after
  cases hk : bit.kind <;> simp_all

/-- The separator after a name is idle if named arguments come next. -/
theorem inkFrom_positional (h : bit.kind = .positional) : inkFrom .input (bit :: rest) =
    (if NamedNext rest then [] else ink bit.text) ++ inkFrom .content rest := by
  have hafter : Phase.after .input bit = .content := by simp [Phase.after, h]
  rw [inkFrom, withoutIdle]
  by_cases hn : NamedNext rest
  · rw [if_pos ⟨rfl, h, hn⟩, if_pos hn]
    rfl
  · rw [if_neg fun hidle => hn hidle.2.2, if_neg hn, joined_cons, ink_append, hafter]
    rfl

theorem ink_marker (hk : bit.kind ≠ .literal) (hf : Fits bit.fragment) : ink bit.text = bit.kind.marker := by
  have htext : bit.text.toList = bit.kind.marker := (fits_marker hk).mp hf
  rw [ink, htext]
  cases hkind : bit.kind with
  | literal => exact absurd hkind hk
  | opening | closing | positional | named => rfl

theorem head_inkFrom_marker (hk : bit.kind ≠ .literal) (hf : Fits bit.fragment) :
    (inkFrom .content (bit :: rest)).head? = some '|' ↔ bit.kind = .named := by
  have hp : Phase.content ≠ .input := nofun
  rw [inkFrom_cons (Or.inl hp) rfl, ink_marker hk hf, List.head?_append_of_ne_nil _ (marker_ne_nil hk)]
  cases hkind : bit.kind with
  | literal => exact absurd hkind hk
  | opening | closing | positional | named => simp [Kind.marker]

theorem head_ink_ne_bar (hp : Plain bit.text.toList) : (ink bit.text).head? ≠ some '|' := by
  intro hbar
  have hmem := List.mem_of_mem_head? hbar
  exact hp.named (List.mem_filter.mp hmem).1

/-- Named arguments come next if the first character that is not white space is their separator. -/
theorem namedNext_iff (hc : Clean (bits.map fragment)) :
    NamedNext bits ↔ (inkFrom .content bits).head? = some '|' := by
  cases bits with
  | nil => simp [NamedNext, inkFrom_nil]
  | cons bit rest =>
    rw [List.map_cons, clean_cons] at hc
    obtain ⟨hfits, hparts, hrest⟩ := hc
    by_cases hk : bit.kind = .literal
    · have plain := isText_of_kind hk (by simp) (by simp)
      rw [NamedNext, inkFrom_text plain]
      by_cases hb : isBlank bit.text = true
      · -- Only a marker can come after a literal.
        rw [ink_eq_nil_iff.mpr hb, List.nil_append]
        cases rest with
        | nil => simp [hk, inkFrom_nil]
        | cons next more =>
          have hnext : next.kind ≠ .literal := (hparts next.fragment rfl hk).1
          rw [head_inkFrom_marker hnext (hrest.fits _ List.mem_cons_self)]
          simp [hk, hb]
      · have hne : ink bit.text ≠ [] := mt ink_eq_nil_iff.mp hb
        have hplain : Plain bit.text.toList := by
          rw [fragment, hk] at hfits
          exact hfits.2
        have hbar := head_ink_ne_bar hplain
        rw [List.head?_append_of_ne_nil _ hne]
        simp [hk, hb, hbar]
    · rw [NamedNext, head_inkFrom_marker hk hfits]
      simp [hk]

end InkFrom

end Bit

/-! ### The ink of a tree -/

namespace Node
variable {limit depth : Nat} {nodes : List Node}

theorem ink_renderAll (nodes : List Node) : ink (renderAll nodes) = nodes.flatMap fun node => ink node.render := by
  induction nodes with
  | nil => rfl
  | cons node rest ih => rw [renderAll, ink_append, ih, List.flatMap_cons]

theorem blind_ink : Blind fun node => ink node.render where
  append s t := by simp only [render, ink_append]
  trimStart s := by simp only [render, ink_trimStart]
  trimEnd s := by simp only [render, ink_trimEnd]

theorem ink_renderAll_tidy (rule : Rule) (nodes : List Node) :
    ink (renderAll (tidy rule nodes)) = ink (renderAll nodes) := by
  rw [ink_renderAll, ink_renderAll, blind_ink.tidy]

/-- The text of an input does not start with white space, whether its first node is a literal or a token. -/
theorem startsClean_renderAll (hw : WellFormedAll limit depth false nodes) (hn : Normal ⟨true, true⟩ none nodes) :
    StartsClean (renderAll nodes) := by
  cases nodes with
  | nil => nofun
  | cons node rest =>
    rw [WellFormedAll] at hw
    unfold StartsClean
    rw [renderAll, String.toList_append]
    rcases hw.1.shape with ⟨text, rfl⟩ | ⟨name, input, fs, rfl, hp⟩
    · have settled := hn.1
      have hne : text.toList ≠ [] := mt String.toList_eq_nil_iff.mp (settled.kept rfl)
      rw [render, List.head?_append_of_ne_nil _ hne]
      exact settled.starts rfl
    · rw [← chars_pieces, hp, chars_cons]
      intro c hc
      obtain rfl : '{' = c := by simpa [Kind.marker] using hc
      rfl

/-- The separator before an input that is not named is all that its text adds to the ink. -/
theorem ink_argumentText {raw : String} (h : StartsClean raw) :
    ink (argumentText raw) = (if (ink raw).head? = some '|' then [] else [':']) ++ ink raw := by
  have hblank : ink " " = [] := rfl
  have hcolon : ink ":" = [':'] := rfl
  have hboth : ink ": " = [':'] := rfl
  rw [head_ink h, argumentText]
  split
  · rw [ink_append, hblank]
  · split
    · next he =>
      obtain rfl := String.isEmpty_iff.mp he
      exact hcolon
    · rw [ink_append, hboth]

theorem render_braced (name : String) (input : Option (List Node)) :
    (Node.token name input false).render = "\x7b\x7b" ++ (Node.token name input true).render ++ "\x7d\x7d" := by
  cases input with
  | none => rfl
  | some parts => rfl

theorem ink_call {name : String} (hw : WellFormedAll limit depth false nodes) :
    ink (call name (some (tidy ⟨true, true⟩ nodes)) true).render =
      ink name ++ ((if (ink (renderAll nodes)).head? = some '|' then [] else [':']) ++ ink (renderAll nodes)) := by
  have hinput := ink_argumentText (startsClean_renderAll (hw.tidy ⟨true, true⟩) (normal_tidy ⟨true, true⟩ nodes))
  rw [ink_renderAll_tidy] at hinput
  rw [call, render, brace, if_pos rfl, ink_append, ink_trim, hinput]

end Node

/-! ### Reading and writing -/

namespace Grammar

section Derived
variable {limit : Nat}

theorem namedNext_append {bits rest : List Bit} (ends : Ends rest) : NamedNext (bits ++ rest) ↔ NamedNext bits := by
  have hrest : ∀ bit ∈ rest.head?, bit.kind ≠ .named ∧ bit.kind ≠ .literal := by
    intro bit hb
    rw [ends bit hb]
    exact ⟨nofun, nofun⟩
  cases bits with
  | nil =>
    cases rest with
    | nil => rfl
    | cons bit rest =>
      obtain ⟨hn, hl⟩ := hrest bit rfl
      simp [NamedNext, hn, hl]
  | cons first bits =>
    cases bits with
    | nil =>
      cases rest with
      | nil => rfl
      | cons bit rest => simp [NamedNext, (hrest bit rfl).1]
    | cons next bits => rfl

theorem inkFrom_closing {phase : Phase} {bit : Bit} {rest : List Bit} (hk : bit.kind = .closing) :
    inkFrom phase (bit :: rest) = ink bit.text ++ inkFrom .content rest := by
  have hkept : phase ≠ .input ∨ bit.kind ≠ .positional := Or.inr (by simp [hk])
  refine inkFrom_cons hkept ?_
  cases phase <;> simp [Phase.after, hk]

theorem inkFrom_call {name : Bit} {rest : List Bit} (named : IsName name) :
    inkFrom .name (name :: rest) = ink name.text ++ inkFrom .input rest := by
  have hphase : Phase.name ≠ .input := nofun
  have hafter : Phase.after .name name = .input := by simp [Phase.after, named.1]
  exact inkFrom_cons (Or.inl hphase) hafter

theorem inkFrom_of_ends {rest : List Bit} (ends : Ends rest) : inkFrom .input rest = inkFrom .content rest := by
  cases rest with
  | nil => rfl
  | cons bit rest => rw [inkFrom_closing (ends bit rfl), inkFrom_closing (ends bit rfl)]

mutual

theorem Sequence.ink_eq {depth : Nat} {bits : List Bit} {nodes : List Node} (rest : List Bit) :
    Sequence limit depth bits nodes → Clean (bits.map fragment) →
      inkFrom .content (bits ++ rest) = ink (renderAll nodes) ++ inkFrom .content rest
  | .nil, _ => rfl
  | .text plain others, hc => by
    have hothers := others.ink_eq rest (clean_cons.mp hc).2.2
    rw [List.cons_append, inkFrom_text plain, hothers, renderAll, ink_append, Node.render, List.append_assoc]
  | .token first others, hc => by
    rw [List.map_append] at hc
    have hothers := others.ink_eq rest hc.of_append.2
    rw [List.append_assoc, first.ink_eq _ hc.of_append.1, hothers, renderAll, ink_append, List.append_assoc]

theorem Token.ink_eq {depth : Nat} {bits : List Bit} {node : Node} (rest : List Bit) :
    Token limit depth bits node → Clean (bits.map fragment) →
      inkFrom .content (bits ++ rest) = ink node.render ++ inkFrom .content rest
  | @Token.braced _ _ opening _ closing _ _ _ opens named argued closes, hc => by
    rw [List.map_cons, clean_cons, ← List.cons_append, List.map_append] at hc
    obtain ⟨hopening, -, hrest⟩ := hc
    have hclosing : Fits closing.fragment := hrest.fits _ (List.mem_append_right _ List.mem_cons_self)
    have ends : Ends (closing :: rest) := fun bit hb => Option.some.inj hb ▸ closes
    have hcall := argued.ink_eq named (closing :: rest) ends hrest.of_append.1
    have hphase : Phase.content ≠ .input := nofun
    have hname : Phase.after .content opening = .name := by simp [Phase.after, opens]
    have hopened : ink opening.text = Kind.opening.marker := by rw [ink_marker (by simp [opens]) hopening, opens]
    have hclosed : ink closing.text = Kind.closing.marker := by rw [ink_marker (by simp [closes]) hclosing, closes]
    rw [List.cons_append, List.cons_append, List.append_assoc, List.singleton_append,
      inkFrom_cons (Or.inl hphase) hname, hcall, inkFrom_closing closes, hopened, hclosed]
    rw [call, call, render_braced, ink_append, ink_append, List.append_assoc, List.append_assoc]
    rfl

theorem Input.ink_eq {depth : Nat} {name : Bit} {bits : List Bit} {input : Option (List Node)} (named : IsName name)
    (rest : List Bit) (ends : Ends rest) : Input limit depth bits input → Clean ((name :: bits).map fragment) →
      inkFrom .name (name :: (bits ++ rest)) =
        ink (Node.call name.text input true).render ++ inkFrom .content rest
  | .none, _ => by
    rw [List.nil_append, inkFrom_call named, inkFrom_of_ends ends, call, Node.render, brace, if_pos rfl, ink_trim]
  | @Input.positional _ _ bit inner nodes kind content, hc => by
    rw [List.map_cons, List.map_cons, clean_cons, clean_cons] at hc
    obtain ⟨-, -, hbit, -, hinner⟩ := hc
    have hbitInk : ink bit.text = [':'] := by rw [ink_marker (by simp [kind]) hbit, kind]; rfl
    have hcontent := content.ink_eq rest hinner
    have hnext : NamedNext (inner ++ rest) ↔ (ink (renderAll nodes)).head? = some '|' := by
      have hall := content.ink_eq [] hinner
      rw [List.append_nil, inkFrom_nil, List.append_nil] at hall
      rw [namedNext_append ends, namedNext_iff hinner, hall]
    rw [inkFrom_call named, List.cons_append, inkFrom_positional kind, hcontent, ink_call content.wellFormed, hbitInk]
    simp only [hnext, List.append_assoc]
  | @Input.named _ _ bit inner nodes kind content, hc => by
    rw [List.map_cons, List.map_cons, clean_cons, clean_cons] at hc
    obtain ⟨-, -, hbit, -, hinner⟩ := hc
    have hbitInk : ink bit.text = ['|'] := by rw [ink_marker (by simp [kind]) hbit, kind]; rfl
    have hcontent := content.ink_eq rest hinner
    have formed : WellFormedAll limit (depth + 1) false (.literal bit.text :: nodes) := by
      rw [WellFormedAll, WellFormed]
      exact ⟨trivial, content.wellFormed⟩
    have hparts : ink (renderAll (.literal bit.text :: nodes)) = '|' :: ink (renderAll nodes) := by
      rw [renderAll, ink_append, Node.render, hbitInk]
      rfl
    have hkept : Phase.input ≠ .input ∨ bit.kind ≠ .positional := Or.inr (by simp [kind])
    have hafter : Phase.after .input bit = .content := by simp [Phase.after, kind]
    rw [inkFrom_call named, List.cons_append, inkFrom_cons hkept hafter, hcontent, ink_call formed, hparts, hbitInk]
    simp

end

theorem Whole.ink_eq {implied : Bool} {bits : List Bit} {nodes : List Node} (h : Whole limit implied bits nodes)
    (hc : Clean (bits.map fragment)) : inkFrom (start implied).phase bits = ink (renderAll nodes) := by
  cases h with
  | mixed sequence =>
    have hall := sequence.ink_eq [] hc
    rwa [List.append_nil, inkFrom_nil, List.append_nil] at hall
  | sole named argued =>
    have ends : Ends [] := nofun
    have hall := argued.ink_eq named [] ends hc
    rw [List.append_nil, inkFrom_nil, List.append_nil] at hall
    rw [renderAll, renderAll, String.append_empty]
    exact hall

end Derived

end Grammar

section Parse
variable {text : String} {implied trim : Bool} {limit : Nat} {nodes : List Node}

/-- Reading a text and writing it back keeps all its characters in their order, white space apart, except for the
    positional separators that come right after the name of a token and before named arguments. -/
theorem ink_renderAll_of_parse (h : parse text implied trim limit = .ok nodes) :
    ink (renderAll nodes) = ink (joined (withoutIdle (start implied).phase (scan text))) := by
  by_cases htext : text = ""
  · subst htext
    obtain ⟨rfl, rfl⟩ := parse_empty_iff.mp h
    rw [ink_renderAll_tidy]
    rfl
  · obtain ⟨items, whole, rfl⟩ := parse_eq_ok_iff.mp h
    have hitems := whole.ink_eq (clean_scan htext)
    rw [ink_renderAll_tidy, ← hitems, inkFrom]

/-- Of the separators of the outer token the first is idle; in the inner one another separator comes between. -/
theorem ink_renderAll_idle :
    parse "x {{ A : |b{{C::|d}} }} y" false true 1 =
      .ok [.literal "x", .token "A" (some [.literal "|b", .token "C" (some [.literal ":|d"]) false]) false,
        .literal "y"] ∧
    ink (renderAll [.literal "x", .token "A" (some [.literal "|b", .token "C" (some [.literal ":|d"]) false]) false,
      .literal "y"]) = ink (joined (withoutIdle (start false).phase (scan
        "x {{ A : |b{{C::|d}} }} y"))) := by
  have hread : parse "x {{ A : |b{{C::|d}} }} y" false true 1 =
      .ok [.literal "x", .token "A" (some [.literal "|b", .token "C" (some [.literal ":|d"]) false]) false,
        .literal "y"] := by decide +kernel
  exact ⟨hread, ink_renderAll_of_parse hread⟩

end Parse

end Placeholder
