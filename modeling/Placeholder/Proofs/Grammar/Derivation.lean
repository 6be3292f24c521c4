import Placeholder.Reading.Sequence

/-! # The grammar of bits

What bits spell a sequence of nodes, told without a queue. A sequence is any mix of text and tokens, a token is
a name between braces, and its input is again a sequence, one level further in:

    sequence k  ::=  (text | token k)*
    token k     ::=  opening name (input k)? closing          where k is at most the limit
    input k     ::=  positional (sequence (k + 1))  |  named (sequence (k + 1))

Every opening marker of a sequence is closed in it, so that counting braces finds its end. -/

namespace Placeholder.Grammar
open Reading

/-- Plain text and, outside of a token, a separator stand for themselves. -/
def IsText (bit : Bit) : Prop :=
  bit.kind ≠ .opening ∧ bit.kind ≠ .closing

/-- A name is a literal that is not blank. -/
def IsName (bit : Bit) : Prop :=
  bit.kind = .literal ∧ Text.isBlank bit.text = false

mutual

/-- The bits of a sequence that stands in the inputs of `depth` tokens, and its nodes before they are tidied. -/
inductive Sequence (limit : Nat) : Nat → List Bit → List Node → Prop where
  | nil {depth : Nat} : Sequence limit depth [] []
  | text {depth : Nat} {bit : Bit} {bits : List Bit} {nodes : List Node} (plain : IsText bit)
      (rest : Sequence limit depth bits nodes) : Sequence limit depth (bit :: bits) (.literal bit.text :: nodes)
  | token {depth : Nat} {bits rest : List Bit} {node : Node} {nodes : List Node} (first : Token limit depth bits node)
      (others : Sequence limit depth rest nodes) : Sequence limit depth (bits ++ rest) (node :: nodes)

/-- The bits of a token in braces. -/
inductive Token (limit : Nat) : Nat → List Bit → Node → Prop where
  | braced {depth : Nat} {opening name closing : Bit} {bits : List Bit} {input : Option (List Node)}
      (fits : depth ≤ limit) (opens : opening.kind = .opening) (named : IsName name)
      (argued : Input limit depth bits input) (closes : closing.kind = .closing) :
      Token limit depth (opening :: name :: (bits ++ [closing])) (.call name.text input false)

/-- The bits after the name of a token. The separator of named arguments belongs to them. -/
inductive Input (limit : Nat) : Nat → List Bit → Option (List Node) → Prop where
  | none {depth : Nat} : Input limit depth [] none
  | positional {depth : Nat} {bit : Bit} {bits : List Bit} {nodes : List Node} (kind : bit.kind = .positional)
      (inner : Sequence limit (depth + 1) bits nodes) :
      Input limit depth (bit :: bits) (some (Node.tidy ⟨true, true⟩ nodes))
  | named {depth : Nat} {bit : Bit} {bits : List Bit} {nodes : List Node} (kind : bit.kind = .named)
      (inner : Sequence limit (depth + 1) bits nodes) :
      Input limit depth (bit :: bits) (some (Node.tidy ⟨true, true⟩ (.literal bit.text :: nodes)))

end

/-- The bits of a whole text: a sequence outside of any token, or a single token without its braces. -/
inductive Whole (limit : Nat) : Bool → List Bit → List Node → Prop where
  | mixed {bits : List Bit} {nodes : List Node} (sequence : Sequence limit 0 bits nodes) : Whole limit false bits nodes
  | sole {name : Bit} {bits : List Bit} {input : Option (List Node)} (named : IsName name)
      (argued : Input limit 0 bits input) : Whole limit true (name :: bits) [.call name.text input true]

/-- A law of a sequence that takes its tokens as they are: it passes over a bit of text and over a token. -/
@[elab_as_elim]
theorem Sequence.flat_induction {limit depth : Nat}
    {motive : ∀ bits nodes, Sequence limit depth bits nodes → Prop} (nil : motive [] [] .nil)
    (text : ∀ {bit bits nodes} (plain : IsText bit) (rest : Sequence limit depth bits nodes),
      motive bits nodes rest → motive (bit :: bits) (.literal bit.text :: nodes) (.text plain rest))
    (token : ∀ {bits rest node nodes} (first : Token limit depth bits node) (others : Sequence limit depth rest nodes),
      motive rest nodes others → motive (bits ++ rest) (node :: nodes) (.token first others)) :
    ∀ {bits nodes} (h : Sequence limit depth bits nodes), motive bits nodes h
  | _, _, .nil => nil
  | _, _, .text plain rest => text plain rest (rest.flat_induction nil text token)
  | _, _, .token first others => token first others (others.flat_induction nil text token)

/-! ### Inversion -/

theorem isText_of_kind {bit : Bit} {kind : Bit.Kind} (hk : bit.kind = kind) (ho : kind ≠ .opening)
    (hc : kind ≠ .closing) : IsText bit :=
  ⟨hk ▸ ho, hk ▸ hc⟩

theorem kind_cases (bit : Bit) : bit.kind = .opening ∨ bit.kind = .closing ∨ IsText bit := by
  unfold IsText
  cases bit.kind <;> simp

theorem Token.eq_cons {limit depth : Nat} {bits : List Bit} {node : Node} (h : Token limit depth bits node) :
    ∃ opening rest, bits = opening :: rest ∧ opening.kind = .opening := by
  cases h with
  | braced _ opens _ _ _ => exact ⟨_, _, rfl, opens⟩

/-- A sequence that starts with a bit of text goes on with the nodes of the rest. -/
theorem Sequence.of_text_cons {limit depth : Nat} {bit : Bit} {bits : List Bit} {nodes : List Node}
    (h : Sequence limit depth (bit :: bits) nodes) (hb : IsText bit) :
    ∃ others, nodes = .literal bit.text :: others ∧ Sequence limit depth bits others := by
  generalize he : bit :: bits = all at h
  cases h with
  | nil => cases he
  | text _ rest =>
    cases he
    exact ⟨_, rfl, rest⟩
  | token first others =>
    obtain ⟨opening, more, rfl, opens⟩ := first.eq_cons
    cases he
    exact absurd opens hb.1

theorem Sequence.eq_nil {limit depth : Nat} {nodes : List Node} (h : Sequence limit depth [] nodes) : nodes = [] := by
  generalize he : [] = bits at h
  cases h with
  | nil => rfl
  | text => cases he
  | token first others =>
    obtain ⟨opening, more, rfl, -⟩ := first.eq_cons
    cases he

theorem Whole.eq_nil {limit : Nat} {implied : Bool} {nodes : List Node} (h : Whole limit implied [] nodes) :
    nodes = [] := by
  cases h with
  | mixed sequence => exact sequence.eq_nil

/-! ### Balance -/

/-- Bits in which every marker has its match: counting the open tokens passes over them. -/
def Balanced (bits : List Bit) : Prop :=
  ∀ depth rest, enclosed depth (bits ++ rest) = (enclosed depth rest).map (bits ++ ·) id

theorem enclosed_text {bit : Bit} (h : IsText bit) (depth : Nat) (rest : List Bit) :
    enclosed depth (bit :: rest) = (enclosed depth rest).map (bit :: ·) id := by
  rw [enclosed.eq_def]
  dsimp only
  split
  · next hk => exact absurd hk h.2
  · next hk => exact absurd hk h.2
  · next hk => exact absurd hk h.1
  · rfl

theorem enclosed_opening {bit : Bit} (h : bit.kind = .opening) (depth : Nat) (rest : List Bit) :
    enclosed depth (bit :: rest) = (enclosed (depth + 1) rest).map (bit :: ·) id := by
  rw [enclosed.eq_def]
  simp only [h]

theorem enclosed_closing {bit : Bit} (h : bit.kind = .closing) (depth : Nat) (rest : List Bit) :
    enclosed (depth + 1) (bit :: rest) = (enclosed depth rest).map (bit :: ·) id := by
  rw [enclosed.eq_def]
  simp only [h]

namespace Balanced

theorem nil : Balanced [] := fun _ _ => rfl

theorem cons {bit : Bit} {bits : List Bit} (hb : IsText bit) (h : Balanced bits) : Balanced (bit :: bits) := by
  intro depth rest
  rw [List.cons_append, enclosed_text hb, h depth rest]
  rfl

theorem append {front back : List Bit} (hf : Balanced front) (hb : Balanced back) : Balanced (front ++ back) := by
  intro depth rest
  rw [List.append_assoc, hf, hb]
  simp [Prod.map]

theorem braces {opening closing : Bit} {bits : List Bit} (ho : opening.kind = .opening) (hc : closing.kind = .closing)
    (h : Balanced bits) : Balanced (opening :: (bits ++ [closing])) := by
  intro depth rest
  have inner : enclosed (depth + 1) (bits ++ closing :: rest) =
      (enclosed depth rest).map (bits ++ closing :: ·) id := by
    rw [h, enclosed_closing hc]
    rfl
  rw [List.cons_append, List.append_assoc, List.singleton_append, enclosed_opening ho, inner]
  simp [Prod.map]

end Balanced

mutual

theorem Sequence.balanced {limit depth : Nat} {bits : List Bit} {nodes : List Node} :
    Sequence limit depth bits nodes → Balanced bits
  | .nil => Balanced.nil
  | .text plain rest => rest.balanced.cons plain
  | .token first others => first.balanced.append others.balanced

theorem Token.balanced {limit depth : Nat} {bits : List Bit} {node : Node} : Token limit depth bits node → Balanced bits
  | .braced _ opens named argued closes =>
    (argued.balanced.cons (isText_of_kind named.1 (by simp) (by simp))).braces opens closes

theorem Input.balanced {limit depth : Nat} {bits : List Bit} {input : Option (List Node)} :
    Input limit depth bits input → Balanced bits
  | .none => Balanced.nil
  | .positional kind content => content.balanced.cons (isText_of_kind kind (by simp) (by simp))
  | .named kind content => content.balanced.cons (isText_of_kind kind (by simp) (by simp))

end

/-- Nothing is left, or a closing marker comes next. -/
def Ends (rest : List Bit) : Prop :=
  ∀ bit ∈ rest.head?, bit.kind = .closing

/-- Counting braces from the start of a sequence finds its end. -/
theorem Balanced.enclosed_eq {bits rest : List Bit} (h : Balanced bits) (he : Ends rest) :
    enclosed 0 (bits ++ rest) = (bits, rest) := by
  have stops : enclosed 0 rest = ([], rest) := by
    cases rest with
    | nil => rfl
    | cons bit rest =>
      have hk : bit.kind = .closing := he bit rfl
      unfold enclosed
      simp only [hk]
  rw [h, stops]
  simp [Prod.map]

end Placeholder.Grammar
