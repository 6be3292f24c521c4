import Placeholder.Proofs.Bit.Fragments
import Placeholder.Proofs.Node.Normal

/-! # The form of nodes

Three properties of a tree of nodes, level by level. It is well formed if it can be read at all, from whatever bits;
it is spelt if its texts hold no marker of their own, as in nodes that come from a text; and its braces are apart if
none of them stands where it would be taken for a part of a marker once the tree is written. -/

namespace Placeholder.Node
open Bit

/-! ### Properties of trees -/

/-- A property of sequences that is told node by node is one of all the nodes. -/
theorem all_iff_forall {P : Node → Prop} {All : List Node → Prop} (nil : All [])
    (cons : ∀ node rest, All (node :: rest) ↔ P node ∧ All rest) (nodes : List Node) :
    All nodes ↔ ∀ node ∈ nodes, P node := by
  induction nodes with
  | nil => exact iff_of_true nil nofun
  | cons node rest ih => rw [cons, ih, List.forall_mem_cons]

/-- How to decide a property of nodes and one of sequences, shape by shape, from what has been decided of the parts.
    What a node has to satisfy depends on its place; `inside place` is that of the parts of a token at `place`. -/
structure Decider {σ : Type} (P : σ → Node → Prop) (All : σ → List Node → Prop) where
  inside : σ → σ
  literal (place : σ) (text : String) : Decidable (P place (.literal text))
  bare (place : σ) (name : String) (implied : Bool) : Decidable (P place (.token name none implied))
  token (place : σ) (name : String) (parts : List Node) (implied : Bool) [Decidable (All (inside place) parts)] :
    Decidable (P place (.token name (some parts) implied))
  input (place : σ) (parts : List Node) [Decidable (All place parts)] : Decidable (P place (.input parts))
  nil (place : σ) : Decidable (All place [])
  cons (place : σ) (node : Node) (rest : List Node) [Decidable (P place node)] [Decidable (All place rest)] :
    Decidable (All place (node :: rest))

section Decider
variable {σ : Type} {P : σ → Node → Prop} {All : σ → List Node → Prop}

mutual

/-- Decides the property of a node. -/
def Decider.one (decider : Decider P All) (place : σ) : (node : Node) → Decidable (P place node)
  | .literal text => decider.literal place text
  | .token name none implied => decider.bare place name implied
  | .token name (some parts) implied =>
    have := decider.all (decider.inside place) parts
    decider.token place name parts implied
  | .input parts =>
    have := decider.all place parts
    decider.input place parts
termination_by structural node => node

/-- Decides the property of a sequence. -/
def Decider.all (decider : Decider P All) (place : σ) : (nodes : List Node) → Decidable (All place nodes)
  | [] => decider.nil place
  | node :: rest =>
    have := decider.one place node
    have := decider.all place rest
    decider.cons place node rest
termination_by structural nodes => nodes

end

end Decider

/-! ### Well formed -/

/-- A token that may stand in the inputs of `depth` others, its braces implied or not. -/
structure Proper (limit depth : Nat) (implied : Bool) (name : String) (own : Bool) : Prop where
  within : depth ≤ limit
  braces : own = implied
  named : name ≠ ""
  trimmed : Text.trim name = name

instance (limit depth : Nat) (implied : Bool) (name : String) (own : Bool) :
    Decidable (Proper limit depth implied name own) :=
  decidable_of_iff (depth ≤ limit ∧ own = implied ∧ name ≠ "" ∧ Text.trim name = name)
    ⟨fun ⟨hd, ho, hn, ht⟩ => ⟨hd, ho, hn, ht⟩, fun ⟨hd, ho, hn, ht⟩ => ⟨hd, ho, hn, ht⟩⟩

mutual

/-- Tokens are proper on their level, inputs are tidy, and only the outermost token may do without braces. -/
def WellFormed (limit depth : Nat) (implied : Bool) : Node → Prop
  | .literal _ => True
  | .token name none own => Proper limit depth implied name own
  | .token name (some parts) own => Proper limit depth implied name own ∧ Normal ⟨true, true⟩ none parts ∧
      WellFormedAll limit (depth + 1) false parts
  | .input _ => False
termination_by structural node => node

/-- Every node of a sequence is well formed. -/
def WellFormedAll (limit depth : Nat) (implied : Bool) : List Node → Prop
  | [] => True
  | node :: rest => WellFormed limit depth implied node ∧ WellFormedAll limit depth implied rest
termination_by structural nodes => nodes

end

/-- A place is told by its depth and whether the braces of a token there are implied. -/
def wellFormedDecider (limit : Nat) : Decider (fun place : Nat × Bool => WellFormed limit place.1 place.2)
    (fun place => WellFormedAll limit place.1 place.2) where
  inside place := (place.1 + 1, false)
  literal _ _ := .isTrue trivial
  bare place name own := inferInstanceAs (Decidable (Proper limit place.1 place.2 name own))
  token place name parts own := inferInstanceAs (Decidable (Proper limit place.1 place.2 name own ∧
    Normal ⟨true, true⟩ none parts ∧ WellFormedAll limit (place.1 + 1) false parts))
  input _ _ := .isFalse id
  nil _ := .isTrue trivial
  cons place node rest := inferInstanceAs (Decidable (WellFormed limit place.1 place.2 node ∧
    WellFormedAll limit place.1 place.2 rest))

instance (limit depth : Nat) (implied : Bool) (nodes : List Node) :
    Decidable (WellFormedAll limit depth implied nodes) :=
  (wellFormedDecider limit).all (depth, implied) nodes

theorem WellFormed.proper {limit depth : Nat} {implied own : Bool} {name : String} {input : Option (List Node)}
    (h : WellFormed limit depth implied (.token name input own)) : Proper limit depth implied name own := by
  cases input with
  | none =>
    rw [WellFormed] at h
    exact h
  | some parts =>
    rw [WellFormed] at h
    exact h.1

theorem wellFormedAll_iff {limit depth : Nat} {implied : Bool} {nodes : List Node} :
    WellFormedAll limit depth implied nodes ↔ ∀ node ∈ nodes, WellFormed limit depth implied node :=
  all_iff_forall trivial (fun _ _ => Iff.rfl) nodes

theorem WellFormedAll.tidy {limit depth : Nat} {implied : Bool} {nodes : List Node}
    (h : WellFormedAll limit depth implied nodes) (rule : Rule) :
    WellFormedAll limit depth implied (Node.tidy rule nodes) := by
  rw [wellFormedAll_iff] at h ⊢
  intro node hm
  rcases mem_tidy hm with hm | ⟨s, rfl⟩
  · exact h node hm
  · rw [WellFormed]
    trivial

theorem WellFormedAll.merge {limit depth : Nat} {implied : Bool} {nodes : List Node}
    (h : WellFormedAll limit depth implied nodes) : WellFormedAll limit depth implied (Node.merge nodes) := by
  rw [← tidy_eq_merge]
  exact h.tidy _

/-! ### Spelt -/

mutual

/-- Literals are not empty and have no pairs of braces, and names are what a single literal bit can be. -/
def Spelt : Node → Prop
  | .literal text => text ≠ "" ∧ Unpaired text.toList
  | .token name none _ => Fits (.literal, name.toList)
  | .token name (some parts) _ => Fits (.literal, name.toList) ∧ SpeltAll parts
  | .input parts => SpeltAll parts
termination_by structural node => node

/-- Every node of a sequence is spelt. -/
def SpeltAll : List Node → Prop
  | [] => True
  | node :: rest => Spelt node ∧ SpeltAll rest
termination_by structural nodes => nodes

end

/-- All places are alike. -/
def speltDecider : Decider (fun _ : Unit => Spelt) (fun _ => SpeltAll) where
  inside := id
  literal _ text := inferInstanceAs (Decidable (text ≠ "" ∧ Unpaired text.toList))
  bare _ name _ := inferInstanceAs (Decidable (Fits (.literal, name.toList)))
  token _ name parts _ := inferInstanceAs (Decidable (Fits (.literal, name.toList) ∧ SpeltAll parts))
  input _ parts := inferInstanceAs (Decidable (SpeltAll parts))
  nil _ := .isTrue trivial
  cons _ node rest := inferInstanceAs (Decidable (Spelt node ∧ SpeltAll rest))

instance : DecidablePred SpeltAll := speltDecider.all ()

theorem speltAll_iff {nodes : List Node} : SpeltAll nodes ↔ ∀ node ∈ nodes, Spelt node :=
  all_iff_forall trivial (fun _ _ => Iff.rfl) nodes

theorem spelt_literal_of_isInfix {s t : String} (h : Unpaired s.toList) (hi : t.toList <:+: s.toList) (hne : t ≠ "") :
    Spelt (.literal t) := by
  rw [Spelt]
  exact ⟨hne, fun ho => h.opening (ho.trans hi), fun hc => h.closing (hc.trans hi)⟩

theorem trim_isInfix {rule : Rule} {before after : Option Node} {text : String} :
    (rule.trim before after text).toList <:+: text.toList := by
  have hs : (if rule.cutsAt before then Text.trimStart text else text).toList <:+: text.toList := by
    split
    · rw [Text.toList_trimStart]
      exact (Text.dropBlanks_suffix _).isInfix
    · exact List.infix_rfl
  unfold Rule.trim
  dsimp only
  split
  · rw [Text.toList_trimEnd]
    exact (Text.dropBlanksRight_isPrefix _).isInfix.trans hs
  · exact hs

theorem SpeltAll.settle {nodes : List Node} (h : SpeltAll nodes) (rule : Rule) (before : Option Node) :
    SpeltAll (Node.settle rule before nodes) := by
  induction nodes generalizing before with
  | nil => exact h
  | cons node rest ih =>
    rw [SpeltAll] at h
    rcases isRigid_or_literal node with hn | ⟨text, rfl⟩
    · rw [settle_rigid hn, SpeltAll]
      exact ⟨h.1, ih h.2 _⟩
    · rcases settle_literal_cases rule before text rest with ⟨-, hs⟩ | ⟨hd, hs⟩ <;> rw [hs]
      · exact ih h.2 _
      · obtain ⟨hne, hu⟩ := h.1
        refine ⟨spelt_literal_of_isInfix hu trim_isInfix fun he => ?_, ih h.2 _⟩
        rw [← Bool.not_eq_true, drops_iff] at hd
        exact hd ⟨he, Or.inr hne⟩

/-! ### Apart -/

/-- Whether a node is a literal that ends in a character. -/
def endsIn (c : Char) : Node → Prop
  | .literal text => text.toList.getLast? = some c
  | _ => False

instance (c : Char) : DecidablePred (endsIn c)
  | .literal text => inferInstanceAs (Decidable (text.toList.getLast? = some c))
  | .token .. | .input _ => .isFalse id

mutual

/-- A token with braces has no closing brace before its closing marker. -/
def Apart : Node → Prop
  | .literal _ => True
  | .token name none implied => implied = false → name.toList.getLast? ≠ some '}'
  | .token _ (some parts) implied => ApartAll parts ∧ (implied = false → ∀ node ∈ parts.getLast?, ¬node.endsIn '}')
  | .input parts => ApartAll parts
termination_by structural node => node

/-- No token has an opening brace before its opening marker. -/
def ApartAll : List Node → Prop
  | [] => True
  | node :: rest => Apart node ∧ (node.endsIn '{' → ∀ next ∈ rest.head?, next.isToken = false) ∧ ApartAll rest
termination_by structural nodes => nodes

end

/-- All places are alike. -/
def apartDecider : Decider (fun _ : Unit => Apart) (fun _ => ApartAll) where
  inside := id
  literal _ _ := .isTrue trivial
  bare _ name implied := inferInstanceAs (Decidable (implied = false → name.toList.getLast? ≠ some '}'))
  token _ _ parts implied := inferInstanceAs (Decidable (ApartAll parts ∧
    (implied = false → ∀ node ∈ parts.getLast?, ¬node.endsIn '}')))
  input _ parts := inferInstanceAs (Decidable (ApartAll parts))
  nil _ := .isTrue trivial
  cons _ node rest := inferInstanceAs (Decidable (Apart node ∧
    (node.endsIn '{' → ∀ next ∈ rest.head?, next.isToken = false) ∧ ApartAll rest))

instance : DecidablePred ApartAll := apartDecider.all ()

end Placeholder.Node
