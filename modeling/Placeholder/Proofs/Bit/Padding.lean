import Placeholder.Proofs.Bit.Offsets

/-! # White space put into a text

White space makes no marker and breaks none, so that what is put between two bits falls to a literal beside it, or
makes a literal of its own where there is none, and all other bits stay as they are. -/

namespace Placeholder.Bit

/-- The bits of two parts with white space between them, wherever they lie. -/
inductive Padded (w : String) : List Bit → List Bit → List Bit → Prop where
  | last {front back : List Bit} {bit grown : Bit} (kind : bit.kind = .literal)
      (grows : grown.fragment = (.literal, bit.text.toList ++ w.toList)) :
      Padded w (front ++ [bit]) back (front ++ grown :: back)
  | first {front back : List Bit} {bit grown : Bit} (kind : bit.kind = .literal)
      (grows : grown.fragment = (.literal, w.toList ++ bit.text.toList)) :
      Padded w front (bit :: back) (front ++ grown :: back)
  | new {front back : List Bit} {blank : Bit} (before : ∀ bit ∈ front.getLast?, bit.kind ≠ .literal)
      (after : ∀ bit ∈ back.head?, bit.kind ≠ .literal) (stands : blank.fragment = (.literal, w.toList)) :
      Padded w front back (front ++ blank :: back)

/-! ### Clean cuts -/

section Clean
variable {fs gs : List Fragment} {f g : Fragment} {cs ds : List Char}

theorem clean_append :
    Clean (fs ++ gs) ↔ Clean fs ∧ Clean gs ∧ ∀ f ∈ fs.getLast?, ∀ g ∈ gs.head?, Parts f g := by
  constructor
  · intro h
    exact ⟨h.of_append.1, h.of_append.2, (List.isChain_append.mp h.parts).2.2⟩
  · rintro ⟨hf, hg, hp⟩
    exact ⟨List.forall_mem_append.mpr ⟨hf.fits, hg.fits⟩, List.isChain_append.mpr ⟨hf.parts, hg.parts, hp⟩⟩

/-- White space at the end of a literal sets it off from any marker. -/
theorem parts_append_blank (cs : List Char) (hne : ds ≠ []) (hd : ds.all Text.isBlankChar = true) (hg : g.1 ≠ .literal) :
    Parts (.literal, cs ++ ds) g := by
  have hlast (c : Char) (hc : (cs ++ ds).getLast? = some c) : c ≠ '{' ∧ c ≠ '}' := by
    rw [List.getLast?_append_of_ne_nil _ hne] at hc
    exact ne_brace_of_blank (List.all_eq_true.mp hd c (List.mem_of_getLast? hc))
  exact fun _ => ⟨hg, fun _ hc => (hlast _ hc).1 rfl, fun _ hc => (hlast _ hc).2 rfl⟩

/-- Another text for a literal, if it goes with what comes after. What comes before is a marker in any case. -/
theorem clean_replace {xs : List Char} (h : Clean (fs ++ (.literal, cs) :: gs))
    (hfits : Fits (.literal, cs) → Fits (.literal, xs))
    (hparts : Fits (.literal, cs) → ∀ g, Parts (.literal, cs) g → Parts (.literal, xs) g) :
    Clean (fs ++ (.literal, xs) :: gs) := by
  rw [clean_append, clean_cons] at h ⊢
  obtain ⟨hfs, ⟨hf, hp, hgs⟩, hjoint⟩ := h
  exact ⟨hfs, ⟨hfits hf, fun g hg => hparts hf g (hp g hg), hgs⟩, by simpa [Parts] using hjoint⟩

theorem clean_last (hne : ds ≠ []) (hd : ds.all Text.isBlankChar = true) (h : Clean (fs ++ (.literal, cs) :: gs)) :
    Clean (fs ++ (.literal, cs ++ ds) :: gs) := by
  refine clean_replace h (fun hf => ⟨by simp [hne], plain_append_blank hf.2 hd⟩) fun _ g hg => ?_
  exact parts_append_blank cs hne hd (hg rfl).1

theorem clean_first (hd : ds.all Text.isBlankChar = true) (h : Clean (fs ++ (.literal, cs) :: gs)) :
    Clean (fs ++ (.literal, ds ++ cs) :: gs) := by
  refine clean_replace h (fun hf => ⟨by simp [hf.1], plain_blank_append hf.2 hd⟩) fun hf g hg => ?_
  have hlast : (ds ++ cs).getLast? = cs.getLast? := List.getLast?_append_of_ne_nil _ hf.1
  simpa only [Parts, hlast] using hg

theorem clean_new (hne : ds ≠ []) (hd : ds.all Text.isBlankChar = true) (hf : ∀ f ∈ fs.getLast?, f.1 ≠ .literal)
    (hg : ∀ g ∈ gs.head?, g.1 ≠ .literal) (h : Clean (fs ++ gs)) : Clean (fs ++ (.literal, ds) :: gs) := by
  obtain ⟨hfs, hgs, -⟩ := clean_append.mp h
  refine clean_append.mpr ⟨hfs, clean_cons.mpr ⟨⟨hne, plain_of_blank hd⟩, ?_, hgs⟩, ?_⟩
  · exact fun g hm => parts_append_blank [] hne hd (hg g hm)
  · exact fun f hm g _ => parts_of_marker (hf f hm)

end Clean

/-! ### The padded text -/

section Padded
variable {w : String} {front back : List Bit}

theorem exists_padded (hw : Text.isBlank w = true) (hne : w ≠ "") (h : Clean ((front ++ back).map fragment)) :
    ∃ whole, Padded w front back whole ∧ Clean (whole.map fragment) ∧
      joined whole = joined front ++ w ++ joined back := by
  have hchars : w.toList ≠ [] := mt String.toList_eq_nil_iff.mp hne
  by_cases hl : ∃ bit ∈ front.getLast?, bit.kind = .literal
  · obtain ⟨bit, hb, hk⟩ := hl
    obtain ⟨front, rfl⟩ := List.getLast?_eq_some_iff.mp hb
    refine ⟨front ++ ⟨.literal, bit.text ++ w, 0⟩ :: back, .last hk (by simp [fragment]), ?_,
      by simp [String.append_assoc]⟩
    have hlast : bit.fragment = (.literal, bit.text.toList) := by rw [fragment, hk]
    simp only [List.append_assoc, List.singleton_append, List.map_append, List.map_cons, hlast] at h
    simpa [fragment] using clean_last hchars hw h
  · by_cases hf : ∃ bit ∈ back.head?, bit.kind = .literal
    · obtain ⟨bit, hb, hk⟩ := hf
      obtain ⟨back, rfl⟩ := List.head?_eq_some_iff.mp hb
      refine ⟨front ++ ⟨.literal, w ++ bit.text, 0⟩ :: back, .first hk (by simp [fragment]), ?_,
        by simp [String.append_assoc]⟩
      have hfirst : bit.fragment = (.literal, bit.text.toList) := by rw [fragment, hk]
      simp only [List.map_append, List.map_cons, hfirst] at h
      simpa [fragment] using clean_first hw h
    · have hbefore : ∀ bit ∈ front.getLast?, bit.kind ≠ .literal := fun bit hb hk => hl ⟨bit, hb, hk⟩
      have hafter : ∀ bit ∈ back.head?, bit.kind ≠ .literal := fun bit hb hk => hf ⟨bit, hb, hk⟩
      refine ⟨front ++ ⟨.literal, w, 0⟩ :: back, .new hbefore hafter rfl, ?_, by simp [String.append_assoc]⟩
      rw [List.map_append] at h
      have := clean_new hchars hw (by simpa [fragment] using hbefore) (by simpa [fragment] using hafter) h
      simpa [fragment] using this

/-- The bits of a text with white space put between two of its bits. -/
theorem padded_scan {text : String} (hw : Text.isBlank w = true) (hne : w ≠ "") (ht : text ≠ "")
    (h : scan text = front ++ back) :
    ∃ whole, Padded w front back whole ∧
      (scan (joined front ++ w ++ joined back)).map fragment = whole.map fragment := by
  obtain ⟨whole, padded, hclean, hjoined⟩ := exists_padded hw hne (h ▸ clean_scan ht)
  refine ⟨whole, padded, ?_⟩
  have hwhole : joined front ++ w ++ joined back ≠ "" := by simp [hne]
  rw [← hjoined] at hwhole ⊢
  rw [map_fragment_scan hwhole, toList_joined, fragments_of_clean hclean]

end Padded

end Placeholder.Bit
