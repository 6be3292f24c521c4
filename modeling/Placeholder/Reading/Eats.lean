import Placeholder.Reading.Basic

/-! # What a step leaves

Every step eats a stretch from the front of the queue, so what it leaves is a suffix of it. A token in braces
eats at least its opening marker, and reading one token after another comes to an end. -/

namespace Placeholder.Reading

/-- The bits that a step leaves, whether it succeeds or not. -/
def left {α : Type} : EStateM.Result Fault (List Bit) α → List Bit
  | .ok _ rest => rest
  | .error _ rest => rest

/-- A step that leaves a suffix of every queue. -/
def Eats {α : Type} (step : Reading α) : Prop :=
  ∀ bits, left (step bits) <:+ bits

theorem Eats.bind {α β : Type} {step : Reading α} {next : α → Reading β} (h : Eats step)
    (hn : ∀ a, Eats (next a)) : Eats (step >>= next) := by
  intro bits
  have hb := h bits
  show left (EStateM.bind step next bits) <:+ bits
  unfold EStateM.bind
  split
  · next a rest he =>
    rw [he] at hb
    exact (hn a rest).trans hb
  · next fault rest he =>
    rw [he] at hb
    exact hb

theorem Eats.pure {α : Type} (a : α) : Eats (pure a : Reading α) :=
  fun _ => List.suffix_rfl

theorem Eats.throw {α : Type} (fault : Fault) : Eats (throw fault : Reading α) :=
  fun _ => List.suffix_rfl

theorem expect_eats (stop : Nat) (kind : Bit.Kind) : Eats (expect stop kind) := by
  intro bits
  unfold expect
  split
  · exact List.suffix_rfl
  · next bit rest =>
    split
    · exact List.suffix_cons bit rest
    · exact List.suffix_rfl

theorem enclosed_append (depth : Nat) (bits : List Bit) :
    (enclosed depth bits).1 ++ (enclosed depth bits).2 = bits := by
  induction bits generalizing depth with
  | nil => rfl
  | cons bit rest ih =>
    unfold enclosed
    split <;> simp [ih]

theorem arguments_eats (stop : Nat) (nested : Nested) : Eats (arguments stop nested) := by
  intro bits
  have h : (enclosed 0 bits).2 <:+ bits := ⟨_, enclosed_append 0 bits⟩
  unfold arguments
  dsimp only
  split <;> exact h

theorem input?_eats (stop : Nat) (nested : Nested) : Eats (input? stop nested) := by
  have h : Eats (some <$> arguments stop nested) := by
    rw [← bind_pure_comp]
    exact (arguments_eats stop nested).bind fun parts => Eats.pure (some parts)
  intro bits
  unfold input?
  split
  · exact List.suffix_rfl
  · next bit rest =>
    split
    · exact (h rest).trans (List.suffix_cons bit rest)
    · exact h (bit :: rest)
    · exact List.suffix_rfl

theorem name_eats (stop : Nat) : Eats (name stop) := by
  refine (expect_eats stop .literal).bind fun bit => ?_
  split
  · exact Eats.throw _
  · exact Eats.pure _

theorem call_eats (stop : Nat) (nested : Nested) (implied : Bool) : Eats (call stop nested implied) :=
  (name_eats stop).bind fun _ => (input?_eats stop nested).bind fun _ => Eats.pure _

theorem bind_eq_ok {α β : Type} {step : Reading α} {next : α → Reading β} {bits rest : List Bit} {b : β}
    (h : (step >>= next) bits = .ok b rest) : ∃ a mid, step bits = .ok a mid ∧ next a mid = .ok b rest := by
  change EStateM.bind step next bits = .ok b rest at h
  unfold EStateM.bind at h
  split at h
  · next a mid he => exact ⟨a, mid, he, h⟩
  · cases h

theorem expect_eq_ok {stop : Nat} {kind : Bit.Kind} {bits rest : List Bit} {bit : Bit}
    (h : expect stop kind bits = .ok bit rest) : bits = bit :: rest ∧ bit.kind = kind := by
  unfold expect at h
  split at h
  · cases h
  · split at h
    · next hk =>
      cases h
      exact ⟨rfl, hk⟩
    · cases h

/-- A token in braces eats its opening marker. -/
theorem length_braced_lt {stop : Nat} {nested : Nested} {bits rest : List Bit} {node : Node}
    (h : braced stop nested bits = .ok node rest) : rest.length < bits.length := by
  obtain ⟨bit, mid, he, h⟩ := bind_eq_ok h
  have hs : left (EStateM.Result.ok node rest) <:+ mid := h ▸ Eats.bind (call_eats stop nested false)
    (fun node => (expect_eats stop .closing).bind fun _ => Eats.pure node) mid
  obtain ⟨rfl, -⟩ := expect_eq_ok he
  exact Nat.lt_succ_of_le hs.length_le

theorem length_token_lt {limit stop : Nat} {nested? : Option Nested} {bits rest : List Bit} {node : Node}
    (h : token limit stop nested? false bits = .ok node rest) : rest.length < bits.length := by
  cases nested? with
  | none => cases h
  | some nested => exact length_braced_lt h

end Placeholder.Reading
