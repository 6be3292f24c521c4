import Mathlib.Data.List.Basic
import Placeholder.Proofs.Grammar.Derivation
import Placeholder.Reader

/-! # What a reader accepts

A reader first takes the bits up to the closing marker that matches and then reads them as a sequence of their
own. It accepts exactly the bits that the grammar derives, and answers with the nodes of the derivation. The bits
of an input are fewer than those of its token, which carries the way from an accepting run to a derivation; the
way back is by induction on the derivation, where balance says that the bits taken are those of the input. -/

namespace Placeholder.Grammar
open Reading

/-! ### Levels -/

theorem level_of_le {limit depth : Nat} (h : depth ≤ limit) :
    level limit depth = some (inner limit (limit - depth)) := by
  simp [level, h]

theorem level_of_lt {limit depth : Nat} (h : limit < depth) : level limit depth = none := by
  simp [level, h]

/-- An input is read one level further in, also where its token is itself too deep. -/
theorem inner_eq (limit depth stop : Nat) (bits : List Bit) : inner limit (limit - depth) stop bits =
      (answer (items limit stop (level limit (depth + 1)) bits)).map (Node.tidy ⟨true, true⟩) := by
  cases hr : limit - depth with
  | zero =>
    rw [level_of_lt (by omega)]
    rfl
  | succ room =>
    have hroom : room = limit - (depth + 1) := by omega
    rw [level_of_le (by omega), ← hroom]
    rfl

/-! ### Steps of the loop -/

section Items
variable {limit stop : Nat} {nested? : Option Nested} {bit : Bit} {bits rest after : List Bit} {node : Node}
  {nodes : List Node} {fault : Fault}

theorem consNode_eq_ok {result : EStateM.Result Fault (List Bit) (List Node)}
    (h : consNode node result = .ok nodes after) : ∃ others, result = .ok others after ∧ nodes = node :: others := by
  cases result with
  | ok others left =>
    cases h
    exact ⟨others, rfl, rfl⟩
  | error fault left => cases h

theorem consNode_eq_error {result : EStateM.Result Fault (List Bit) (List Node)}
    (h : consNode node result = .error fault after) : result = .error fault after := by
  cases result with
  | ok others left => cases h
  | error met left =>
    cases h
    rfl

theorem items_nil : items limit stop nested? [] = .ok [] [] := by
  rw [items]

theorem items_text (h : IsText bit) :
    items limit stop nested? (bit :: rest) = consNode (.literal bit.text) (items limit stop nested? rest) := by
  rw [items.eq_def]
  dsimp only
  split
  · next hk => exact absurd hk h.1
  · next hk => exact absurd hk h.2
  · rfl

theorem items_closing (h : bit.kind = .closing) :
    items limit stop nested? (bit :: rest) = .error ⟨.stray bit.kind bit.text, bit.position⟩ rest := by
  rw [items.eq_def]
  dsimp only
  split
  · next hk => rw [h] at hk; cases hk
  · rfl
  · next hk => exact absurd h hk

theorem items_opening (h : bit.kind = .opening) : items limit stop nested? (bit :: rest) =
    match token limit stop nested? false (bit :: rest) with
    | .ok node after => consNode node (items limit stop nested? after)
    | .error fault after => .error fault after := by
  rw [items.eq_def]
  dsimp only
  split
  · split <;> next he => rw [he]
  · next hk => rw [h] at hk; cases hk
  · next hk _ => exact absurd h hk

theorem items_token (h : bit.kind = .opening) (ht : token limit stop nested? false (bit :: rest) = .ok node after) :
    items limit stop nested? (bit :: rest) = consNode node (items limit stop nested? after) := by
  rw [items_opening h, ht]

theorem items_token_error (h : bit.kind = .opening)
    (ht : token limit stop nested? false (bit :: rest) = .error fault after) :
    items limit stop nested? (bit :: rest) = .error fault after := by
  rw [items_opening h, ht]

/-- What the loop can have done on a queue that it has read to its end. -/
theorem items_cases (h : items limit stop nested? bits = .ok nodes after) :
    (bits = [] ∧ nodes = [] ∧ after = []) ∨
    (∃ bit rest others, bits = bit :: rest ∧ IsText bit ∧ nodes = .literal bit.text :: others ∧
      items limit stop nested? rest = .ok others after) ∨
    (∃ node rest others, token limit stop nested? false bits = .ok node rest ∧ nodes = node :: others ∧
      items limit stop nested? rest = .ok others after) := by
  cases bits with
  | nil =>
    rw [items_nil] at h
    cases h
    exact Or.inl ⟨rfl, rfl, rfl⟩
  | cons bit rest =>
    rcases kind_cases bit with hk | hk | plain
    · cases ht : token limit stop nested? false (bit :: rest) with
      | ok node mid =>
        rw [items_token hk ht] at h
        obtain ⟨others, ho, rfl⟩ := consNode_eq_ok h
        exact Or.inr (Or.inr ⟨node, mid, others, rfl, rfl, ho⟩)
      | error fault mid =>
        rw [items_token_error hk ht] at h
        cases h
    · rw [items_closing hk] at h
      cases h
    · rw [items_text plain] at h
      obtain ⟨others, hr, rfl⟩ := consNode_eq_ok h
      exact Or.inr (Or.inl ⟨bit, rest, others, rfl, plain, rfl, hr⟩)

end Items

/-! ### From a run to a derivation -/

section Sound
variable {limit depth stop : Nat} {read : Nested} {bits rest : List Bit}

/-- What `read` makes of these bits, the grammar derives. -/
def Derives (limit depth : Nat) (read : Nested) (bits : List Bit) : Prop :=
  ∀ stop parts, read stop bits = .ok parts →
    ∃ nodes, Sequence limit (depth + 1) bits nodes ∧ parts = Node.tidy ⟨true, true⟩ nodes

theorem arguments_eq_ok {parts : List Node} (h : arguments stop read bits = .ok parts rest) :
    ∃ front, enclosed 0 bits = (front, rest) ∧ read (position stop rest) front = .ok parts := by
  unfold arguments at h
  dsimp only at h
  split at h
  · next hr =>
    cases h
    exact ⟨_, rfl, hr⟩
  · cases h

theorem eq_append_of_enclosed {depth : Nat} {front : List Bit} (h : enclosed depth bits = (front, rest)) :
    bits = front ++ rest := by
  rw [← enclosed_append depth bits, h]

theorem some_arguments_eq_ok {input : Option (List Node)} (h : (some <$> arguments stop read) bits = .ok input rest) :
    ∃ parts, input = some parts ∧ arguments stop read bits = .ok parts rest := by
  rw [← bind_pure_comp] at h
  obtain ⟨parts, mid, ha, hp⟩ := bind_eq_ok h
  cases hp
  exact ⟨parts, rfl, ha⟩

theorem name_eq_ok {text : String} (h : name stop bits = .ok text rest) :
    ∃ bit, bits = bit :: rest ∧ IsName bit ∧ text = bit.text := by
  obtain ⟨bit, mid, he, hn⟩ := bind_eq_ok h
  obtain ⟨rfl, hk⟩ := expect_eq_ok he
  split at hn
  · cases hn
  · next hb =>
    cases hn
    exact ⟨bit, rfl, ⟨hk, by simpa using hb⟩, rfl⟩

theorem input_derives {input : Option (List Node)}
    (ih : ∀ inner, inner.length ≤ bits.length → Derives limit depth read inner)
    (h : input? stop read bits = .ok input rest) : ∃ front, bits = front ++ rest ∧ Input limit depth front input := by
  cases bits with
  | nil =>
    cases h
    exact ⟨[], rfl, .none⟩
  | cons bit bits =>
    unfold input? at h
    dsimp only at h
    split at h
    · next hk =>
      obtain ⟨parts, rfl, ha⟩ := some_arguments_eq_ok h
      obtain ⟨inner, he, hr⟩ := arguments_eq_ok ha
      obtain rfl := eq_append_of_enclosed he
      obtain ⟨nodes, hs, rfl⟩ := ih inner (by simp; omega) _ _ hr
      exact ⟨bit :: inner, rfl, .positional hk hs⟩
    · next hk =>
      obtain ⟨parts, rfl, ha⟩ := some_arguments_eq_ok h
      obtain ⟨inner, he, hr⟩ := arguments_eq_ok ha
      -- The separator is no closing marker, so the count goes past it.
      have plain := isText_of_kind hk (by simp) (by simp)
      cases hb : enclosed 0 bits with
      | mk front back =>
        rw [enclosed_text plain, hb] at he
        cases he
        obtain rfl := eq_append_of_enclosed hb
        obtain ⟨nodes, hall, rfl⟩ := ih (bit :: front) (by simp) _ _ hr
        obtain ⟨others, rfl, hs⟩ := hall.of_text_cons plain
        exact ⟨bit :: front, rfl, .named hk hs⟩
    · cases h
      exact ⟨[], rfl, .none⟩

theorem call_derives {node : Node} {implied : Bool}
    (ih : ∀ inner, inner.length < bits.length → Derives limit depth read inner)
    (h : call stop read implied bits = .ok node rest) : ∃ name front input, bits = name :: (front ++ rest) ∧
      IsName name ∧ Input limit depth front input ∧ node = .call name.text input implied := by
  obtain ⟨text, afterName, hn, hrest⟩ := bind_eq_ok h
  obtain ⟨name, rfl, named, rfl⟩ := name_eq_ok hn
  obtain ⟨input, afterInput, hi, hend⟩ := bind_eq_ok hrest
  obtain ⟨front, rfl, argued⟩ := input_derives (fun inner hl => ih inner (Nat.lt_succ_of_le hl)) hi
  cases hend
  exact ⟨name, front, input, rfl, named, argued, rfl⟩

theorem token_derives {node : Node}
    (ih : ∀ inner, inner.length < bits.length → Derives limit depth (Reading.inner limit (limit - depth)) inner)
    (h : token limit stop (level limit depth) false bits = .ok node rest) :
    ∃ front, bits = front ++ rest ∧ Token limit depth front node := by
  by_cases fits : depth ≤ limit
  · rw [level_of_le fits] at h
    obtain ⟨opening, afterOpening, ho, hcall⟩ := bind_eq_ok h
    obtain ⟨rfl, opens⟩ := expect_eq_ok ho
    obtain ⟨node, afterCall, hc, hclose⟩ := bind_eq_ok hcall
    obtain ⟨name, front, input, rfl, named, argued, rfl⟩ :=
      call_derives (fun inner hl => ih inner (Nat.lt_succ_of_lt hl)) hc
    obtain ⟨closing, afterClosing, he, hend⟩ := bind_eq_ok hclose
    obtain ⟨rfl, closes⟩ := expect_eq_ok he
    cases hend
    exact ⟨opening :: name :: (front ++ [closing]), by simp, .braced fits opens named argued closes⟩
  · rw [level_of_lt (Nat.lt_of_not_le fits)] at h
    cases h

end Sound

theorem answer_map_eq_ok {result : EStateM.Result Fault (List Bit) (List Node)} {tidied : List Node → List Node}
    {parts : List Node} (h : (answer result).map tidied = .ok parts) :
    ∃ nodes after, result = .ok nodes after ∧ parts = tidied nodes := by
  cases result with
  | ok nodes after =>
    cases h
    exact ⟨nodes, after, rfl, rfl⟩
  | error fault after => cases h

/-- A run that reads a whole queue follows a derivation. -/
theorem sequence_of_items {limit depth stop : Nat} {bits after : List Bit} {nodes : List Node}
    (h : items limit stop (level limit depth) bits = .ok nodes after) : after = [] ∧ Sequence limit depth bits nodes := by
  rcases items_cases h with ⟨rfl, rfl, rfl⟩ | ⟨bit, rest, others, rfl, plain, rfl, hr⟩ | ⟨node, rest, others, ht, rfl, hr⟩
  · exact ⟨rfl, .nil⟩
  · obtain ⟨rfl, hs⟩ := sequence_of_items hr
    exact ⟨rfl, .text plain hs⟩
  · have hlt := length_token_lt ht
    obtain ⟨front, rfl, hd⟩ := token_derives (fun inner hl stop parts hi => by
      rw [inner_eq] at hi
      obtain ⟨nodes, after, hr, rfl⟩ := answer_map_eq_ok hi
      exact ⟨nodes, (sequence_of_items hr).2, rfl⟩) ht
    obtain ⟨rfl, hs⟩ := sequence_of_items hr
    exact ⟨rfl, .token hd hs⟩
termination_by bits.length

theorem derives_inner (limit depth : Nat) (bits : List Bit) :
    Derives limit depth (inner limit (limit - depth)) bits := by
  intro stop parts hi
  rw [inner_eq] at hi
  obtain ⟨nodes, after, hr, rfl⟩ := answer_map_eq_ok hi
  exact ⟨nodes, (sequence_of_items hr).2, rfl⟩

/-! ### From a derivation to a run -/

section Complete
variable {limit depth stop : Nat} {read : Nested} {bits rest : List Bit}

theorem bind_of_ok {α β : Type} {step : Reading α} {next : α → Reading β} {a : α} (h : step bits = .ok a rest) :
    (step >>= next) bits = next a rest := by
  change EStateM.bind step next bits = next a rest
  unfold EStateM.bind
  rw [h]

theorem expect_of_kind {bit : Bit} {kind : Bit.Kind} (h : bit.kind = kind) :
    expect stop kind (bit :: rest) = .ok bit rest := by
  simp [expect, h]

theorem name_of_isName {bit : Bit} (h : IsName bit) : name stop (bit :: rest) = .ok bit.text rest := by
  unfold name
  rw [bind_of_ok (expect_of_kind h.1), h.2]
  rfl

theorem call_of_input {name : Bit} {input : Option (List Node)} {implied : Bool} (named : IsName name)
    (h : input? stop read bits = .ok input rest) :
    call stop read implied (name :: bits) = .ok (.call name.text input implied) rest := by
  unfold call
  rw [bind_of_ok (name_of_isName named), bind_of_ok h]
  rfl

theorem some_arguments_of_enclosed {front : List Bit} {parts : List Node} (he : enclosed 0 bits = (front, rest))
    (hr : read (position stop rest) front = .ok parts) :
    (some <$> arguments stop read) bits = .ok (some parts) rest := by
  have ha : arguments stop read bits = .ok parts rest := by simp [arguments, he, hr]
  rw [← bind_pure_comp, bind_of_ok ha]
  rfl

theorem input?_of_ends (ends : Ends rest) : input? stop read rest = .ok none rest := by
  cases rest with
  | nil => rfl
  | cons bit rest =>
    have hk : bit.kind = .closing := ends bit rfl
    simp [input?, hk]

theorem items_of_text {nested? : Option Nested} {bit : Bit} {nodes : List Node} (plain : IsText bit)
    (h : items limit stop nested? bits = .ok nodes rest) :
    items limit stop nested? (bit :: bits) = .ok (.literal bit.text :: nodes) rest := by
  rw [items_text plain, h]
  rfl

theorem inner_of_items {nodes : List Node}
    (h : items limit stop (level limit (depth + 1)) bits = .ok nodes []) :
    Reading.inner limit (limit - depth) stop bits = .ok (Node.tidy ⟨true, true⟩ nodes) := by
  rw [inner_eq, h]
  rfl

end Complete

mutual

theorem Sequence.items_eq {limit depth : Nat} {bits : List Bit} {nodes : List Node} (stop : Nat) :
    Sequence limit depth bits nodes → items limit stop (level limit depth) bits = .ok nodes []
  | .nil => items_nil
  | .text plain rest => items_of_text plain (rest.items_eq stop)
  | @Sequence.token _ _ _ rest _ _ first others => by
    have ht := first.token_eq stop rest
    obtain ⟨opening, more, rfl, opens⟩ := first.eq_cons
    rw [List.cons_append] at ht ⊢
    rw [items_token opens ht, others.items_eq stop]
    rfl

theorem Token.token_eq {limit depth : Nat} {bits : List Bit} {node : Node} (stop : Nat) (rest : List Bit) :
    Token limit depth bits node → token limit stop (level limit depth) false (bits ++ rest) = .ok node rest
  | .braced fits opens named argued closes => by
    have ends : Ends (_ :: rest) := fun bit hb => Option.some.inj hb ▸ closes
    have hi := argued.input?_eq stop _ ends
    rw [level_of_le fits, List.cons_append, List.cons_append, List.append_assoc, List.singleton_append]
    show braced stop _ _ = _
    unfold braced
    rw [bind_of_ok (expect_of_kind opens), bind_of_ok (call_of_input named hi), bind_of_ok (expect_of_kind closes)]
    rfl

theorem Input.input?_eq {limit depth : Nat} {bits : List Bit} {input : Option (List Node)} (stop : Nat)
    (rest : List Bit) (ends : Ends rest) :
    Input limit depth bits input → input? stop (inner limit (limit - depth)) (bits ++ rest) = .ok input rest
  | .none => input?_of_ends ends
  | .positional kind content => by
    have hr := inner_of_items (content.items_eq (position stop rest))
    have ha := some_arguments_of_enclosed (content.balanced.enclosed_eq ends) hr
    simp only [List.cons_append, input?, kind]
    exact ha
  | .named kind content => by
    have plain := isText_of_kind kind (by simp) (by simp)
    have hr := inner_of_items (items_of_text plain (content.items_eq (position stop rest)))
    have ha := some_arguments_of_enclosed ((content.balanced.cons plain).enclosed_eq ends) hr
    simp only [List.cons_append, input?, kind]
    exact ha

end

/-! ### Whole queues -/

theorem sole_eq_ok_iff {limit stop : Nat} {bits after : List Bit} {nodes : List Node} :
    sole limit 0 stop bits = .ok nodes after ↔ after = [] ∧ Whole limit true bits nodes := by
  constructor
  · intro h
    obtain ⟨node, afterCall, hc, hrest⟩ := bind_eq_ok h
    rw [level_of_le (Nat.zero_le limit)] at hc
    obtain ⟨name, front, input, rfl, named, argued, rfl⟩ := call_derives (fun inner _ => derives_inner limit 0 inner) hc
    obtain ⟨queue, afterGet, hg, hend⟩ := bind_eq_ok hrest
    cases hg
    cases afterCall with
    | nil =>
      cases hend
      rw [List.append_nil]
      exact ⟨rfl, .sole named argued⟩
    | cons bit bits => cases hend
  · rintro ⟨rfl, whole⟩
    cases whole with
    | @sole name bits input named argued =>
      have ends : Ends [] := nofun
      have hi := argued.input?_eq stop [] ends
      rw [List.append_nil] at hi
      have ht : token limit stop (level limit 0) true (name :: bits) = .ok (.call name.text input true) [] := by
        rw [level_of_le (Nat.zero_le limit)]
        exact call_of_input named hi
      unfold sole
      rw [bind_of_ok ht]
      rfl

theorem items_eq_ok_iff {limit stop : Nat} {bits after : List Bit} {nodes : List Node} :
    items limit stop (level limit 0) bits = .ok nodes after ↔ after = [] ∧ Whole limit false bits nodes := by
  constructor
  · intro h
    obtain ⟨rfl, hs⟩ := sequence_of_items h
    exact ⟨rfl, .mixed hs⟩
  · rintro ⟨rfl, whole⟩
    cases whole with
    | mixed hs => exact hs.items_eq stop

theorem map_eq_ok_iff {α β : Type} {f : α → β} {step : Reading α} {bits after : List Bit} {b : β} :
    (f <$> step) bits = .ok b after ↔ ∃ a, step bits = .ok a after ∧ b = f a := by
  rw [← bind_pure_comp]
  constructor
  · intro h
    obtain ⟨a, mid, hs, hp⟩ := bind_eq_ok h
    cases hp
    exact ⟨a, hs, rfl⟩
  · rintro ⟨a, hs, rfl⟩
    exact bind_of_ok hs

/-- A queue that can be read is read to its end, and its nodes are those that the grammar finds. -/
theorem sequence_eq_ok_iff {limit stop : Nat} {rule : Node.Rule} {implied : Bool} {bits after : List Bit}
    {nodes : List Node} : Reading.sequence limit 0 stop rule implied bits = .ok nodes after ↔
      after = [] ∧ ∃ items, Whole limit implied bits items ∧ nodes = Node.tidy rule items := by
  cases implied with
  | true =>
    show (Node.tidy rule <$> sole limit 0 stop) bits = .ok nodes after ↔ _
    rw [map_eq_ok_iff]
    simp only [sole_eq_ok_iff, and_assoc, exists_and_left]
  | false =>
    let step : Reading (List Node) := items limit stop (level limit 0)
    show (Node.tidy rule <$> step) bits = .ok nodes after ↔ _
    rw [map_eq_ok_iff]
    simp only [step, items_eq_ok_iff, and_assoc, exists_and_left]

theorem run_fst_eq_ok_iff {α : Type} {reader : Reader} {step : Reading α} {a : α} :
    (reader.run step).1 = .ok a ↔ ∃ after, step reader.bits = .ok a after := by
  unfold Reader.run
  cases step reader.bits <;> simp

/-- A reader around which there is no token. -/
theorem reader_sequence_eq_ok_iff {reader : Reader} (h : reader.depth = 0) {rule : Node.Rule} {implied : Bool}
    {nodes : List Node} : (reader.sequence rule implied).1 = .ok nodes ↔
      ∃ items, Whole reader.limit implied reader.bits items ∧ nodes = Node.tidy rule items := by
  simp only [Reader.sequence, h, run_fst_eq_ok_iff, sequence_eq_ok_iff, exists_eq_left]

theorem tidy_token (rule : Node.Rule) (name : String) (input : Option (List Node)) (implied : Bool) :
    Node.tidy rule [.token name input implied] = [.token name input implied] := rfl

/-- A reader accepts the bits that the grammar derives, and no others, and its answer is the tidy sequence of the
    derivation. Without braces it accepts a single name with its input. -/
theorem sequence_ok_iff_derivation (bits : List Bit) (limit : Nat) (trim : Bool) (nodes : List Node) :
    (((Reader.ofBits bits limit).sequence ⟨true, trim⟩ false).1 = .ok nodes ↔
      ∃ items, Sequence limit 0 bits items ∧ nodes = Node.tidy ⟨true, trim⟩ items) ∧
    (((Reader.ofBits bits limit).sequence ⟨true, trim⟩ true).1 = .ok nodes ↔
      ∃ name rest input, bits = name :: rest ∧ IsName name ∧ Input limit 0 rest input ∧
        nodes = [.token (Text.trim name.text) input true]) := by
  constructor
  · rw [reader_sequence_eq_ok_iff (by rfl)]
    constructor
    · rintro ⟨items, ⟨derived⟩, rfl⟩
      exact ⟨items, derived, rfl⟩
    · rintro ⟨items, derived, rfl⟩
      exact ⟨items, .mixed derived, rfl⟩
  · rw [reader_sequence_eq_ok_iff (by rfl)]
    constructor
    · rintro ⟨items, whole, rfl⟩
      change Whole limit true bits items at whole
      cases whole with
      | sole named argued => exact ⟨_, _, _, rfl, named, argued, tidy_token _ _ _ _⟩
    · rintro ⟨name, rest, input, rfl, named, argued, rfl⟩
      exact ⟨_, .sole named argued, (tidy_token _ _ _ _).symm⟩

-- The name is trimmed, and so are the arguments once they are merged, which keep their separator.
example : ((Reader.ofBits [⟨.literal, " a ", 0⟩, ⟨.opening, "<", 3⟩, ⟨.literal, " B ", 4⟩, ⟨.named, "|", 7⟩,
    ⟨.literal, " x", 8⟩, ⟨.positional, ":", 10⟩, ⟨.literal, "y ", 11⟩, ⟨.closing, ">", 13⟩] 0).sequence
      ⟨true, true⟩ false).1 =
    .ok [.literal "a", .token "B" (some [.literal "| x:y"]) false] := by decide +kernel

end Placeholder.Grammar
