import Mathlib.Data.List.Basic
import Placeholder.Node.Tidy
import Placeholder.Proofs.Text.Trim

/-! # Normal sequences

A sequence is normal under a rule if no two literals stand side by side and every literal is as the rule wants it
between its two neighbours. Tidying gives a normal sequence, leaves a normal one alone, and touches nothing but
literals. -/

namespace Placeholder.Node

/-- A literal as the rule wants it between its neighbours. -/
structure Settled (rule : Rule) (before after : Option Node) (text : String) : Prop where
  alone : ∀ s, after ≠ some (.literal s)
  starts : rule.cutsAt before = true → Text.StartsClean text
  ends : rule.cutsAt after = true → Text.EndsClean text
  kept : rule.atEnds = true → text ≠ ""

instance (rule : Rule) (before after : Option Node) (text : String) : Decidable (Settled rule before after text) :=
  have : Decidable (∀ s, after ≠ some (.literal s)) :=
    match after with
    | none | some (.token ..) | some (.input _) => .isTrue fun _ => nofun
    | some (.literal s) => .isFalse fun h => h s rfl
  decidable_of_iff ((∀ s, after ≠ some (.literal s)) ∧ (rule.cutsAt before = true → Text.StartsClean text) ∧
      (rule.cutsAt after = true → Text.EndsClean text) ∧ (rule.atEnds = true → text ≠ ""))
    ⟨fun ⟨h, hs, he, hk⟩ => ⟨h, hs, he, hk⟩, fun ⟨h, hs, he, hk⟩ => ⟨h, hs, he, hk⟩⟩

/-- Every literal of a sequence that follows `before` is settled. -/
def Normal (rule : Rule) : Option Node → List Node → Prop
  | _, [] => True
  | before, .literal text :: rest => Settled rule before rest.head? text ∧ Normal rule (some (.literal text)) rest
  | _, node :: rest => Normal rule (some node) rest

/-- Decides whether a sequence is normal, from its end. -/
def decNormal (rule : Rule) : (before : Option Node) → (nodes : List Node) → Decidable (Normal rule before nodes)
  | _, [] => .isTrue trivial
  | before, .literal text :: rest =>
    have := decNormal rule (some (.literal text)) rest
    inferInstanceAs (Decidable (Settled rule before rest.head? text ∧ Normal rule (some (.literal text)) rest))
  | _, .token name args implied :: rest => decNormal rule (some (.token name args implied)) rest
  | _, .input parts :: rest => decNormal rule (some (.input parts)) rest

instance (rule : Rule) (before : Option Node) (nodes : List Node) : Decidable (Normal rule before nodes) :=
  decNormal rule before nodes

/-- No two literals stand side by side. -/
def Merged : List Node → Prop
  | [] => True
  | .literal _ :: rest => (∀ s, rest.head? ≠ some (.literal s)) ∧ Merged rest
  | _ :: rest => Merged rest

/-- Whether a node is anything but a literal. -/
def isRigid (node : Node) : Bool :=
  node.literal?.isNone

section Rigid
variable {node : Node} {rest : List Node}

theorem filter_isRigid_literal (s : String) (rest : List Node) :
    (.literal s :: rest).filter isRigid = rest.filter isRigid := rfl

theorem ne_literal_of_isRigid (h : node.isRigid = true) (s : String) : node ≠ .literal s := by
  rintro rfl
  cases h

theorem isRigid_or_literal (node : Node) : node.isRigid = true ∨ ∃ s, node = .literal s := by
  cases node with
  | literal s => exact Or.inr ⟨s, rfl⟩
  | token | input => exact Or.inl rfl

theorem merge_rigid (h : node.isRigid = true) : merge (node :: rest) = node :: merge rest := by
  cases node with
  | literal => cases h
  | token | input => rfl

theorem settle_rigid (h : node.isRigid = true) (rule : Rule) (before : Option Node) :
    settle rule before (node :: rest) = node :: settle rule (some node) rest := by
  cases node with
  | literal => cases h
  | token | input => rfl

theorem normal_rigid (h : node.isRigid = true) (rule : Rule) (before : Option Node) :
    Normal rule before (node :: rest) ↔ Normal rule (some node) rest := by
  cases node with
  | literal => cases h
  | token | input => rfl

theorem merged_rigid (h : node.isRigid = true) : Merged (node :: rest) ↔ Merged rest := by
  cases node with
  | literal => cases h
  | token | input => rfl

theorem Merged.tail (h : Merged (node :: rest)) : Merged rest := by
  cases node with
  | literal => exact h.2
  | token | input => exact h

end Rigid

/-! ### Merging -/

/-- A literal is put in front of a merged sequence, or into its first literal. -/
theorem merge_literal_cases (text : String) (rest : List Node) :
    (∃ more others, merge rest = .literal more :: others ∧
      merge (.literal text :: rest) = .literal (text ++ more) :: others) ∨
    ((∀ s, (merge rest).head? ≠ some (.literal s)) ∧ merge (.literal text :: rest) = .literal text :: merge rest) := by
  rw [merge]
  split
  · next more others h => exact Or.inl ⟨more, others, h, rfl⟩
  · next h =>
    refine Or.inr ⟨fun s hs => ?_, rfl⟩
    obtain ⟨others, ho⟩ := List.head?_eq_some_iff.mp hs
    exact h s others ho

theorem merged_merge (nodes : List Node) : Merged (merge nodes) := by
  induction nodes with
  | nil => trivial
  | cons node rest ih =>
    rcases isRigid_or_literal node with h | ⟨text, rfl⟩
    · rw [merge_rigid h, merged_rigid h]
      exact ih
    · rcases merge_literal_cases text rest with ⟨more, others, hr, hm⟩ | ⟨hr, hm⟩ <;> rw [hm]
      · rw [hr] at ih
        exact ih
      · exact ⟨hr, ih⟩

theorem merge_of_merged {nodes : List Node} (h : Merged nodes) : merge nodes = nodes := by
  induction nodes with
  | nil => rfl
  | cons node rest ih =>
    rcases isRigid_or_literal node with hn | ⟨text, rfl⟩
    · rw [merge_rigid hn, ih ((merged_rigid hn).mp h)]
    · rcases merge_literal_cases text rest with ⟨more, others, hr, -⟩ | ⟨-, hm⟩
      · rw [ih h.2] at hr
        exact absurd (by rw [hr]; rfl) (h.1 more)
      · rw [hm, ih h.2]

theorem merge_cons_congr {nodes others : List Node} (node : Node) (h : merge nodes = merge others) :
    merge (node :: nodes) = merge (node :: others) := by
  cases node <;> simp only [merge, h]

/-- Two literals in a row are as good as one. -/
theorem merge_literal_literal (s t : String) (rest : List Node) :
    merge (.literal s :: .literal t :: rest) = merge (.literal (s ++ t) :: rest) := by
  rcases merge_literal_cases t rest with ⟨more, others, hr, hm⟩ | ⟨hr, hm⟩
  · rw [merge, hm]
    dsimp only
    rw [merge, hr]
    dsimp only
    rw [String.append_assoc]
  · rw [merge, hm]
    dsimp only
    rw [merge]
    split
    · next more others h => exact absurd (by rw [h]; rfl) (hr more)
    · rfl

theorem merged_of_normal {rule : Rule} {before : Option Node} {nodes : List Node} (h : Normal rule before nodes) :
    Merged nodes := by
  induction nodes generalizing before with
  | nil => trivial
  | cons node rest ih =>
    rcases isRigid_or_literal node with hn | ⟨text, rfl⟩
    · exact (merged_rigid hn).mpr (ih ((normal_rigid hn rule before).mp h))
    · exact ⟨h.1.alone, ih h.2⟩

/-! ### Trimming one literal -/

section Trim
variable {rule : Rule} {before after : Option Node} {text : String}

theorem starts_trim (h : rule.cutsAt before = true) : Text.StartsClean (rule.trim before after text) := by
  unfold Rule.trim
  rw [if_pos h]
  dsimp only
  split
  · exact (Text.startsClean_trimStart text).trimEnd
  · exact Text.startsClean_trimStart text

theorem ends_trim (h : rule.cutsAt after = true) : Text.EndsClean (rule.trim before after text) := by
  unfold Rule.trim
  dsimp only
  rw [if_pos h]
  exact Text.endsClean_trimEnd _

theorem trim_of_settled (h : Settled rule before after text) : rule.trim before after text = text := by
  have hs : (if rule.cutsAt before then Text.trimStart text else text) = text := by
    split
    · next hc => exact Text.trimStart_eq_self (h.starts hc)
    · rfl
  unfold Rule.trim
  dsimp only
  rw [hs]
  split
  · next hc => exact Text.trimEnd_eq_self (h.ends hc)
  · rfl

theorem drops_iff {kept : String} :
    rule.drops text kept = true ↔ kept = "" ∧ (rule.atEnds = true ∨ text ≠ "") := by
  simp [Rule.drops, String.isEmpty_iff]

theorem drops_of_settled (h : Settled rule before after text) : rule.drops text text = false := by
  rw [← Bool.not_eq_true, drops_iff]
  rintro ⟨he, ha | hne⟩
  · exact h.kept ha he
  · exact hne he

theorem cutsAt_literal (rule : Rule) (s : String) : rule.cutsAt (some (.literal s)) = false := by
  simp [Rule.cutsAt, isToken]

end Trim

/-! ### Tidying -/

section Settle
variable {rule : Rule} {before : Option Node} {text : String} {rest nodes : List Node}

theorem settle_literal_cases (rule : Rule) (before : Option Node) (text : String) (rest : List Node) :
    (rule.drops text (rule.trim before rest.head? text) = true ∧
      settle rule before (.literal text :: rest) = settle rule (some (.literal text)) rest) ∨
    (rule.drops text (rule.trim before rest.head? text) = false ∧ settle rule before (.literal text :: rest) =
      .literal (rule.trim before rest.head? text) :: settle rule (some (.literal text)) rest) := by
  rw [settle]
  split
  · next h => exact Or.inl ⟨h, rfl⟩
  · next h => exact Or.inr ⟨by simpa using h, rfl⟩

/-- What comes before matters to a literal only. -/
theorem settle_congr (h : ∀ s, rest.head? ≠ some (.literal s)) (rule : Rule) (before others : Option Node) :
    settle rule before rest = settle rule others rest := by
  cases rest with
  | nil => rfl
  | cons node rest =>
    cases node with
    | literal s => exact absurd rfl (h s)
    | token | input => rfl

theorem normal_congr (h : ∀ s, rest.head? ≠ some (.literal s)) (rule : Rule) (before others : Option Node) :
    Normal rule before rest ↔ Normal rule others rest := by
  cases rest with
  | nil => rfl
  | cons node rest =>
    cases node with
    | literal s => exact absurd rfl (h s)
    | token | input => rfl

theorem head_settle (h : ∀ s, rest.head? ≠ some (.literal s)) (rule : Rule) (before : Option Node) :
    (settle rule before rest).head? = rest.head? := by
  cases rest with
  | nil => rfl
  | cons node rest =>
    cases node with
    | literal s => exact absurd rfl (h s)
    | token | input => rfl

theorem normal_settle (h : Merged nodes) : Normal rule before (settle rule before nodes) := by
  induction nodes generalizing before with
  | nil => trivial
  | cons node rest ih =>
    rcases isRigid_or_literal node with hn | ⟨text, rfl⟩
    · rw [settle_rigid hn, normal_rigid hn]
      exact ih ((merged_rigid hn).mp h)
    · obtain ⟨alone, hrest⟩ := h
      have hhead := head_settle alone rule (some (.literal text))
      rcases settle_literal_cases rule before text rest with ⟨-, hs⟩ | ⟨hd, hs⟩ <;> rw [hs]
      · -- The literal is dropped, and what it stood before is no literal.
        exact (normal_congr (by rwa [hhead]) rule before _).mpr (ih hrest)
      · refine ⟨⟨by rwa [hhead], starts_trim, by rw [hhead]; exact ends_trim, fun ha he => ?_⟩, ?_⟩
        · rw [← Bool.not_eq_true, drops_iff] at hd
          exact hd ⟨he, Or.inl ha⟩
        · exact (normal_congr (by rwa [hhead]) rule _ _).mpr (ih hrest)

theorem settle_of_normal (h : Normal rule before nodes) : settle rule before nodes = nodes := by
  induction nodes generalizing before with
  | nil => rfl
  | cons node rest ih =>
    rcases isRigid_or_literal node with hn | ⟨text, rfl⟩
    · rw [settle_rigid hn, ih ((normal_rigid hn rule before).mp h)]
    · obtain ⟨settled, hrest⟩ := h
      rw [settle]
      rw [trim_of_settled settled, drops_of_settled settled, if_neg Bool.false_ne_true, ih hrest]

theorem normal_tidy (rule : Rule) (nodes : List Node) : Normal rule none (tidy rule nodes) :=
  normal_settle (merged_merge nodes)

theorem tidy_of_normal (h : Normal rule none nodes) : tidy rule nodes = nodes := by
  rw [tidy, merge_of_merged (merged_of_normal h), settle_of_normal h]

/-- A rule that trims nowhere asks for nothing more than a merged sequence. -/
theorem normal_of_merged (h : Merged nodes) : Normal ⟨false, false⟩ before nodes := by
  induction nodes generalizing before with
  | nil => trivial
  | cons node rest ih =>
    rcases isRigid_or_literal node with hn | ⟨text, rfl⟩
    · rw [normal_rigid hn]
      exact ih ((merged_rigid hn).mp h)
    · refine ⟨⟨h.1, fun hc => ?_, fun hc => ?_, nofun⟩, ih h.2⟩
      · exact absurd hc (by cases before <;> simp [Rule.cutsAt])
      · exact absurd hc (by cases rest.head? <;> simp [Rule.cutsAt])

theorem tidy_eq_merge (nodes : List Node) : tidy ⟨false, false⟩ nodes = merge nodes :=
  settle_of_normal (normal_of_merged (merged_merge nodes))

end Settle

/-! ### What tidying keeps -/

/-- Merging keeps what is told of nodes one by one, and of literals whatever way they are cut. -/
theorem flatMap_merge {α : Type} {tell : Node → List α}
    (append : ∀ s t, tell (.literal (s ++ t)) = tell (.literal s) ++ tell (.literal t)) (nodes : List Node) :
    (merge nodes).flatMap tell = nodes.flatMap tell := by
  induction nodes with
  | nil => rfl
  | cons node rest ih =>
    rcases isRigid_or_literal node with hn | ⟨text, rfl⟩
    · rw [merge_rigid hn, List.flatMap_cons, List.flatMap_cons, ih]
    · rw [List.flatMap_cons, ← ih]
      rcases merge_literal_cases text rest with ⟨more, others, hr, hm⟩ | ⟨-, hm⟩ <;> rw [hm, List.flatMap_cons]
      rw [hr, List.flatMap_cons, append, List.append_assoc]

/-- What is told of nodes one by one, and of literals whatever way they are cut and however much white space is at their
    ends. -/
structure Blind {α : Type} (tell : Node → List α) : Prop where
  append : ∀ s t, tell (.literal (s ++ t)) = tell (.literal s) ++ tell (.literal t)
  trimStart : ∀ s, tell (.literal (Text.trimStart s)) = tell (.literal s)
  trimEnd : ∀ s, tell (.literal (Text.trimEnd s)) = tell (.literal s)

namespace Blind
variable {α : Type} {tell : Node → List α}

theorem empty (h : Blind tell) : tell (.literal "") = [] :=
  List.self_eq_append_right.mp (h.append "" "")

theorem trim (h : Blind tell) (rule : Rule) (before after : Option Node) (text : String) :
    tell (.literal (rule.trim before after text)) = tell (.literal text) := by
  have hs : tell (.literal (if rule.cutsAt before then Text.trimStart text else text)) = tell (.literal text) := by
    split
    · exact h.trimStart text
    · rfl
  unfold Rule.trim
  dsimp only
  split
  · rw [h.trimEnd, hs]
  · exact hs

theorem merge (h : Blind tell) (nodes : List Node) : (Node.merge nodes).flatMap tell = nodes.flatMap tell :=
  flatMap_merge h.append nodes

theorem settle (h : Blind tell) (rule : Rule) (before : Option Node) (nodes : List Node) :
    (Node.settle rule before nodes).flatMap tell = nodes.flatMap tell := by
  induction nodes generalizing before with
  | nil => rfl
  | cons node rest ih =>
    rcases isRigid_or_literal node with hn | ⟨text, rfl⟩
    · rw [settle_rigid hn, List.flatMap_cons, List.flatMap_cons, ih]
    · have htrim := h.trim rule before rest.head? text
      rcases settle_literal_cases rule before text rest with ⟨hd, hs⟩ | ⟨-, hs⟩ <;> rw [hs]
      · -- Nothing is left of the literal, so there was nothing to tell of it.
        rw [(drops_iff.mp hd).1, h.empty] at htrim
        rw [ih, List.flatMap_cons, ← htrim, List.nil_append]
      · rw [List.flatMap_cons, List.flatMap_cons, htrim, ih]

theorem tidy (h : Blind tell) (rule : Rule) (nodes : List Node) :
    (Node.tidy rule nodes).flatMap tell = nodes.flatMap tell := by
  rw [Node.tidy, h.settle, h.merge]

end Blind

theorem blind_isRigid : Blind fun node => (Option.guard isRigid node).toList :=
  ⟨fun _ _ => rfl, fun _ => rfl, fun _ => rfl⟩

theorem filter_isRigid_eq (nodes : List Node) :
    nodes.filter isRigid = nodes.flatMap fun node => (Option.guard isRigid node).toList := by
  rw [← List.filterMap_eq_filter, List.filterMap_eq_flatMap_toList]

theorem filter_merge (nodes : List Node) : (merge nodes).filter isRigid = nodes.filter isRigid := by
  rw [filter_isRigid_eq, filter_isRigid_eq, blind_isRigid.merge]

/-- Nodes other than literals stay as they are, in their order. -/
theorem filter_tidy (rule : Rule) (nodes : List Node) : (tidy rule nodes).filter isRigid = nodes.filter isRigid := by
  rw [filter_isRigid_eq, filter_isRigid_eq, blind_isRigid.tidy]

theorem mem_tidy {rule : Rule} {nodes : List Node} {node : Node} (h : node ∈ tidy rule nodes) :
    node ∈ nodes ∨ ∃ s, node = .literal s := by
  rcases isRigid_or_literal node with hn | hs
  · have hm : node ∈ (tidy rule nodes).filter isRigid := List.mem_filter.mpr ⟨h, hn⟩
    rw [filter_tidy] at hm
    exact Or.inl (List.mem_filter.mp hm).1
  · exact Or.inr hs

theorem merge_eq_nil_iff {nodes : List Node} : merge nodes = [] ↔ nodes = [] := by
  cases nodes with
  | nil => exact iff_of_true rfl rfl
  | cons node rest =>
    refine iff_of_false (fun h => ?_) (List.cons_ne_nil node rest)
    rcases isRigid_or_literal node with hn | ⟨text, rfl⟩
    · rw [merge_rigid hn] at h
      cases h
    · rcases merge_literal_cases text rest with ⟨more, others, -, hm⟩ | ⟨-, hm⟩ <;> rw [hm] at h <;> cases h

/-- Something is left of a sequence whose ends are not trimmed. -/
theorem tidy_eq_nil {rule : Rule} {nodes : List Node} (h : tidy rule nodes = []) (ha : rule.atEnds = false) :
    nodes = [] := by
  have hrigid : ∀ node ∈ merge nodes, ¬node.isRigid = true := by
    rw [← List.filter_eq_nil_iff, filter_merge, ← filter_tidy rule, h]
    rfl
  have hmerged := merged_merge nodes
  rw [tidy] at h
  rw [← merge_eq_nil_iff]
  cases hm : merge nodes with
  | nil => rfl
  | cons node rest =>
    rw [hm] at hrigid hmerged h
    rw [List.forall_mem_cons] at hrigid
    obtain ⟨s, rfl⟩ := (isRigid_or_literal node).resolve_left hrigid.1
    have hrest : rest = [] := by
      cases rest with
      | nil => rfl
      | cons next more =>
        obtain ⟨t, rfl⟩ := (isRigid_or_literal next).resolve_left (hrigid.2 next List.mem_cons_self)
        exact absurd rfl (hmerged.1 t)
    subst hrest
    have htrim : rule.trim none none s = s := by simp [Rule.trim, Rule.cutsAt, ha]
    rcases settle_literal_cases rule none s [] with ⟨hd, -⟩ | ⟨-, hs⟩
    · rw [List.head?_nil, htrim, drops_iff, ha] at hd
      exact absurd hd.1 (hd.2.resolve_left nofun)
    · rw [hs] at h
      cases h

end Placeholder.Node
