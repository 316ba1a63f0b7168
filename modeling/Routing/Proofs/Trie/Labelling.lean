import Mathlib.Data.List.Nodup
import Routing.Trie.RootPath
import Routing.Trie.Walk
/-!
# Root-path labellings of the trie

The proofs about insertion and lookup rest on one invariant, `Trie.Labelled t ρ`: a labelling
`ρ` of the arena by root paths (the steps read from the root down to a node) that the shape of the
trie respects. The root is the literal node `/` with the empty path; every child of a node is a
node of the arena, labelled by its parent's path followed by its own steps; every node other than
the root has a parent; the children of a node begin with pairwise different steps; and each slot
holds nodes of its kind (a literal child is keyed by the first character of its text).

From these fields follow the facts the rest of the development uses: every node lies below the
root, a node lies below another exactly when its path extends the other's (`descends_of_prefix`),
the labelling is injective, and every node has one parent.
-/

namespace Routing

open Routing.Regex

variable {α : Type}

/-- The steps a node of a kind adds to its parent's path. -/
def NodeKind.steps : NodeKind → List PathStep
  | .literal s => s.toList.map .char
  | .param p => [.param p.signature]
  | .wildcard => [.wildcard]

/-- The children of a node: literal, parameter and wildcard children. -/
def Node.childList (n : Node α) : List NodeId := n.literals.map (·.2) ++ n.params ++ n.wildcard.toList

theorem Node.mem_childList {n : Node α} {c : NodeId} :
    c ∈ n.childList ↔ (∃ k, (k, c) ∈ n.literals) ∨ c ∈ n.params ∨ n.wildcard = some c := by
  simp only [Node.childList, List.mem_append, List.mem_map, Option.mem_toList]
  constructor
  · rintro ((⟨⟨k, c'⟩, hm, rfl⟩ | hm) | hm)
    · exact .inl ⟨k, hm⟩
    · exact .inr (.inl hm)
    · exact .inr (.inr hm)
  · rintro (⟨k, hm⟩ | hm | hm)
    · exact .inl (.inl ⟨(k, c), hm, rfl⟩)
    · exact .inl (.inr hm)
    · exact .inr hm

namespace Trie

/-- The kind of a node, if the id names one. -/
def kind? (t : Trie α) (id : NodeId) : Option NodeKind := (t.node? id).map Node.kind

/-- `b` lies below `a`: it is `a` itself, or lies below one of `a`'s children. -/
inductive Descends (t : Trie α) : NodeId → NodeId → Prop
  | refl (a : NodeId) : Descends t a a
  | child {a c b : NodeId} : c ∈ t.childIds a → Descends t c b → Descends t a b

theorem Descends.trans {t : Trie α} {a b c : NodeId} (hab : t.Descends a b) (hbc : t.Descends b c) :
    t.Descends a c := by
  induction hab with
  | refl => exact hbc
  | child hc _ ih => exact .child hc (ih hbc)

/-- A labelling of the arena by root paths, respected by the shape of the trie. -/
structure Labelled (t : Trie α) (ρ : NodeId → List PathStep) : Prop where
  root_kind : t.kind? rootId = some (.literal "/")
  root_path : ρ rootId = []
  child_lt : ∀ p c, c ∈ t.childIds p → c < t.nodes.size
  child_path : ∀ p c, c ∈ t.childIds p → ρ c = ρ p ++ t.ownSteps c
  has_parent : ∀ x, x < t.nodes.size → x ≠ rootId → ∃ p, x ∈ t.childIds p
  /-- The children of a node begin with pairwise different steps. -/
  first_steps : ∀ p, ((t.childIds p).map fun c => (t.ownSteps c).head?).Nodup
  literal_slot : ∀ p n, t.node? p = some n → ∀ k c, (k, c) ∈ n.literals →
    ∃ s, t.kind? c = some (.literal s) ∧ s.toList.head? = some k
  param_slot : ∀ p n, t.node? p = some n → ∀ c ∈ n.params, ∃ q, t.kind? c = some (.param q)
  wildcard_slot : ∀ p n, t.node? p = some n → ∀ c, n.wildcard = some c → t.kind? c = some .wildcard
  /-- A parameter node's regex is the reading of its regex text. -/
  param_regex : ∀ x q c, t.kind? x = some (.param q) → q.constraint = some c →
    Pattern.parse c.source = .ok c.regex

/-! ## Reading the accessors -/

theorem kind?_eq_some {t : Trie α} {id : NodeId} {k : NodeKind} :
    t.kind? id = some k ↔ ∃ n, t.node? id = some n ∧ n.kind = k := by
  simp [kind?]

theorem childIds_eq (t : Trie α) (p : NodeId) :
    t.childIds p = ((t.node? p).map Node.childList).getD [] := by
  unfold childIds Node.childList
  cases t.node? p <;> rfl

theorem ownSteps_eq (t : Trie α) (id : NodeId) :
    t.ownSteps id = ((t.kind? id).map NodeKind.steps).getD [] := by
  unfold ownSteps kind?
  cases (t.node? id).map Node.kind with
  | none => rfl
  | some k => cases k <;> rfl

theorem ownSteps_of_kind {t : Trie α} {id : NodeId} {k : NodeKind} (h : t.kind? id = some k) :
    t.ownSteps id = k.steps := by
  simp [ownSteps_eq, h]

theorem text_of_literal {t : Trie α} {id : NodeId} {s : String}
    (h : t.kind? id = some (.literal s)) : t.text id = s := by
  obtain ⟨n, hn, hk⟩ := kind?_eq_some.1 h
  obtain ⟨kind, literals, params, wildcard, handlers⟩ := n
  simp only at hk
  subst hk
  simp [text, hn]

theorem mem_childIds {t : Trie α} {p c : NodeId} :
    c ∈ t.childIds p ↔ ∃ n, t.node? p = some n ∧
      ((∃ k, (k, c) ∈ n.literals) ∨ c ∈ n.params ∨ n.wildcard = some c) := by
  rw [childIds_eq]
  cases t.node? p with
  | none => simp
  | some n => simp [Node.mem_childList]

theorem node?_of_mem_childIds {t : Trie α} {p c : NodeId} (h : c ∈ t.childIds p) :
    ∃ n, t.node? p = some n := by
  obtain ⟨n, hn, -⟩ := mem_childIds.1 h
  exact ⟨n, hn⟩

theorem lt_size_of_node? {t : Trie α} {id : NodeId} {n : Node α} (h : t.node? id = some n) :
    id < t.nodes.size := by
  rcases Nat.lt_or_ge id t.nodes.size with hlt | hge
  · exact hlt
  · simp [node?, Array.getElem?_eq_none hge] at h

/-! ## Consequences of a labelling -/

namespace Labelled

variable {t : Trie α} {ρ : NodeId → List PathStep}

theorem root_lt (hL : t.Labelled ρ) : rootId < t.nodes.size :=
  lt_size_of_node? (kind?_eq_some.1 hL.root_kind).choose_spec.1

/-- Every child reads at least one step. -/
theorem ownSteps_ne_nil (hL : t.Labelled ρ) {p c : NodeId} (hc : c ∈ t.childIds p) :
    t.ownSteps c ≠ [] := by
  obtain ⟨n, hn, hslot⟩ := mem_childIds.1 hc
  rcases hslot with ⟨k, hk⟩ | hk | hk
  · obtain ⟨s, hs, hhead⟩ := hL.literal_slot p n hn k c hk
    rw [ownSteps_of_kind hs]
    intro hnil
    have : s.toList = [] := List.map_eq_nil_iff.1 hnil
    simp [this] at hhead
  · obtain ⟨q, hq⟩ := hL.param_slot p n hn c hk
    simp [ownSteps_of_kind hq, NodeKind.steps]
  · simp [ownSteps_of_kind (hL.wildcard_slot p n hn c hk), NodeKind.steps]

/-- The first step of a child is its key, its signature or the wildcard, by its slot. -/
theorem head_ownSteps_literal (hL : t.Labelled ρ) {p : NodeId} {n : Node α} (hn : t.node? p = some n)
    {k : Char} {c : NodeId} (h : (k, c) ∈ n.literals) : (t.ownSteps c).head? = some (.char k) := by
  obtain ⟨s, hs, hk⟩ := hL.literal_slot p n hn k c h
  rw [ownSteps_of_kind hs, NodeKind.steps, List.head?_map, hk]
  rfl

theorem head_ownSteps_param (hL : t.Labelled ρ) {p : NodeId} {n : Node α} (hn : t.node? p = some n)
    {c : NodeId} (h : c ∈ n.params) :
    ∃ q, t.kind? c = some (.param q) ∧ (t.ownSteps c).head? = some (.param q.signature) := by
  obtain ⟨q, hq⟩ := hL.param_slot p n hn c h
  exact ⟨q, hq, by simp [ownSteps_of_kind hq, NodeKind.steps]⟩

theorem head_ownSteps_wildcard (hL : t.Labelled ρ) {p : NodeId} {n : Node α} (hn : t.node? p = some n)
    {c : NodeId} (h : n.wildcard = some c) : (t.ownSteps c).head? = some .wildcard := by
  simp [ownSteps_of_kind (hL.wildcard_slot p n hn c h), NodeKind.steps]

/-- The first step of a child, by the slot that holds it. -/
theorem head_ownSteps (hL : t.Labelled ρ) {p : NodeId} {n : Node α} (hn : t.node? p = some n)
    {c : NodeId} (hc : c ∈ t.childIds p) :
    (∃ k, (k, c) ∈ n.literals ∧ (t.ownSteps c).head? = some (.char k)) ∨
    (c ∈ n.params ∧ ∃ q, t.kind? c = some (.param q) ∧ (t.ownSteps c).head? = some (.param q.signature)) ∨
    (n.wildcard = some c ∧ (t.ownSteps c).head? = some .wildcard) := by
  obtain ⟨m, hm, hslot⟩ := mem_childIds.1 hc
  rw [hn] at hm
  cases hm
  rcases hslot with ⟨k, hk⟩ | hk | hk
  · exact .inl ⟨k, hk, hL.head_ownSteps_literal hn hk⟩
  · exact .inr (.inl ⟨hk, hL.head_ownSteps_param hn hk⟩)
  · exact .inr (.inr ⟨hk, hL.head_ownSteps_wildcard hn hk⟩)

theorem path_length_lt (hL : t.Labelled ρ) {p c : NodeId} (hc : c ∈ t.childIds p) :
    (ρ p).length < (ρ c).length := by
  have hne := hL.ownSteps_ne_nil hc
  rw [hL.child_path p c hc, List.length_append]
  have : 0 < (t.ownSteps c).length := List.length_pos_iff.2 hne
  omega

theorem descends_prefix (hL : t.Labelled ρ) {a b : NodeId} (h : t.Descends a b) :
    ρ a <+: ρ b := by
  induction h with
  | refl => exact List.prefix_refl _
  | @child a c b hc _ ih =>
    exact List.IsPrefix.trans ⟨t.ownSteps c, (hL.child_path a c hc).symm⟩ ih

/-- A node strictly below another has a strictly longer path. -/
theorem descends_eq_of_length_le (hL : t.Labelled ρ) {a b : NodeId} (h : t.Descends a b)
    (hle : (ρ b).length ≤ (ρ a).length) : a = b := by
  cases h with
  | refl => rfl
  | child hc hcb =>
    have h1 := hL.path_length_lt hc
    have h2 := (hL.descends_prefix hcb).length_le
    omega

theorem descends_lt_size (hL : t.Labelled ρ) {a b : NodeId} (h : t.Descends a b)
    (ha : a < t.nodes.size) : b < t.nodes.size := by
  induction h with
  | refl => exact ha
  | child hc _ ih => exact ih (hL.child_lt _ _ hc)

/-- Every node lies below the root; the induction is on the length of the node's path, which
its parent's path undercuts. -/
theorem reach (hL : t.Labelled ρ) : ∀ x, x < t.nodes.size → t.Descends rootId x := by
  intro x
  induction hn : (ρ x).length using Nat.strongRecOn generalizing x with
  | _ n ih =>
    intro hx
    by_cases hroot : x = rootId
    · rw [hroot]; exact .refl _
    · obtain ⟨p, hp⟩ := hL.has_parent x hx hroot
      obtain ⟨np, hnp⟩ := node?_of_mem_childIds hp
      have hlt := hL.path_length_lt hp
      have hdp := ih _ (hn ▸ hlt) p rfl (lt_size_of_node? hnp)
      exact hdp.trans (.child hp (.refl x))

/-- A child whose path begins `z` starts with the step of `z` right after its parent's path. -/
theorem head_ownSteps_of_prefix (hL : t.Labelled ρ) {a c : NodeId} {z : List PathStep}
    (hc : c ∈ t.childIds a) (hcz : ρ c <+: z) : (t.ownSteps c).head? = z[(ρ a).length]? := by
  obtain ⟨w, hw⟩ := hcz
  rw [← hw, hL.child_path a c hc]
  obtain ⟨s, ss, hs⟩ := List.exists_cons_of_ne_nil (hL.ownSteps_ne_nil hc)
  simp [hs]

/-- Two children of a node whose paths are both prefixes of one path are the same child. -/
theorem child_eq_of_prefix (hL : t.Labelled ρ) {a c₁ c₂ : NodeId} {z : List PathStep}
    (h₁ : c₁ ∈ t.childIds a) (h₂ : c₂ ∈ t.childIds a) (hz₁ : ρ c₁ <+: z) (hz₂ : ρ c₂ <+: z) :
    c₁ = c₂ := by
  apply List.inj_on_of_nodup_map (hL.first_steps a) h₁ h₂
  -- both first steps are the step of `z` right after the parent's path
  exact (hL.head_ownSteps_of_prefix h₁ hz₁).trans (hL.head_ownSteps_of_prefix h₂ hz₂).symm

/-- A node lies below another exactly when, below a common ancestor, its path extends the
other's. -/
theorem descends_of_prefix (hL : t.Labelled ρ) {a p y : NodeId} (hp : t.Descends a p)
    (hy : t.Descends a y) (hpre : ρ p <+: ρ y) : t.Descends p y := by
  induction hp generalizing y with
  | refl => exact hy
  | child hc hcp ih =>
    rename_i a c p
    cases hy with
    | refl =>
      have h1 := hL.path_length_lt hc
      have h2 := (hL.descends_prefix hcp).length_le
      have h3 := hpre.length_le
      omega
    | child hc' hcy =>
      rename_i c'
      have hcc : c = c' := hL.child_eq_of_prefix hc hc'
        ((hL.descends_prefix hcp).trans hpre) (hL.descends_prefix hcy)
      subst hcc
      exact ih hcy hpre

/-- Distinct nodes have distinct paths. -/
theorem path_inj (hL : t.Labelled ρ) {x y : NodeId} (hx : x < t.nodes.size) (hy : y < t.nodes.size)
    (h : ρ x = ρ y) : x = y := by
  have hd := hL.descends_of_prefix (hL.reach x hx) (hL.reach y hy) (h ▸ List.prefix_refl _)
  exact hL.descends_eq_of_length_le hd (Nat.le_of_eq (congrArg List.length h.symm))

/-- A literal child is keyed by one key, and a key names one literal child. -/
theorem literal_key_iff (hL : t.Labelled ρ) {p : NodeId} {n : Node α} (hn : t.node? p = some n)
    {k : Char} {c : NodeId} (hkc : (k, c) ∈ n.literals) : ∀ e ∈ n.literals, e.1 = k ↔ e.2 = c := by
  have hmem : ∀ k' c', (k', c') ∈ n.literals → c' ∈ t.childIds p := fun k' c' h =>
    mem_childIds.2 ⟨n, hn, .inl ⟨k', h⟩⟩
  have hhead : ∀ k' c', (k', c') ∈ n.literals → (t.ownSteps c').head? = some (.char k') :=
    fun _ _ h => hL.head_ownSteps_literal hn h
  rintro ⟨k', c'⟩ he
  constructor
  · rintro rfl
    exact List.inj_on_of_nodup_map (hL.first_steps p) (hmem _ _ he) (hmem _ _ hkc)
      ((hhead _ _ he).trans (hhead _ _ hkc).symm)
  · rintro rfl
    have := (hhead _ _ he).symm.trans (hhead _ _ hkc)
    simpa using this

/-- A node is the child of one node only. -/
theorem parent_unique (hL : t.Labelled ρ) {p₁ p₂ c : NodeId} (h₁ : c ∈ t.childIds p₁)
    (h₂ : c ∈ t.childIds p₂) : p₁ = p₂ := by
  obtain ⟨n₁, hn₁⟩ := node?_of_mem_childIds h₁
  obtain ⟨n₂, hn₂⟩ := node?_of_mem_childIds h₂
  apply hL.path_inj (lt_size_of_node? hn₁) (lt_size_of_node? hn₂)
  have e := (hL.child_path p₁ c h₁).symm.trans (hL.child_path p₂ c h₂)
  exact List.append_cancel_right e

end Labelled

end Trie

end Routing
