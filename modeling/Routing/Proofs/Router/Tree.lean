import Routing.Proofs.Router.Reachable
/-!
# The arena of a router is a tree

Whatever templates were added, the arena of a router's trie is a tree of the shape insertion
gives it (`Trie.TreeShaped`): the root is the literal node `/` and nobody's child, every other
node is the child of exactly one node, once, and there is no cycle; each slot holds nodes of its
kind, a literal child keyed by the first character of its text; a wildcard node has no children,
and a parameter node no parameter children and only literal children whose text starts with `/`.

The tree facts follow from the labelling by root paths. The last two follow from the shape of
routes: every node lies on the root path of some route read from a template
(`Registry.covered`), and in such a path no step follows the wildcard and only `/` or the
wildcard follows a parameter step (`Registry.path_isChain`). A child's first step comes right
after its parent's last step on the child's own path (`admits_of_child`).
-/

namespace Routing

namespace Trie

variable {α : Type}

/-- The arena is a tree of the shape insertion gives it. -/
structure TreeShaped (t : Trie α) : Prop where
  root_kind : t.kind? rootId = some (.literal "/")
  root_orphan : ∀ p, rootId ∉ t.childIds p
  child_lt : ∀ p c, c ∈ t.childIds p → c < t.nodes.size
  /-- Every node but the root is referenced by exactly one node, once. -/
  one_parent : ∀ x, x < t.nodes.size → x ≠ rootId →
    ∃ p, (t.childIds p).count x = 1 ∧ ∀ q, x ∈ t.childIds q → q = p
  acyclic : ∀ x, ¬ Relation.TransGen (fun a b => b ∈ t.childIds a) x x
  literal_slot : ∀ p n, t.node? p = some n → ∀ k c, (k, c) ∈ n.literals →
    ∃ s, t.kind? c = some (.literal s) ∧ s.toList.head? = some k
  param_slot : ∀ p n, t.node? p = some n → ∀ c ∈ n.params, ∃ q, t.kind? c = some (.param q)
  wildcard_slot : ∀ p n, t.node? p = some n → ∀ c, n.wildcard = some c → t.kind? c = some .wildcard
  wildcard_leaf : ∀ x, t.kind? x = some .wildcard → t.childIds x = []
  /-- A parameter node has no parameter children, and its literal children are keyed by `/`. -/
  param_children : ∀ x n q, t.node? x = some n → n.kind = .param q →
    n.params = [] ∧ ∀ k c, (k, c) ∈ n.literals → k = '/'

namespace Labelled

variable {t : Trie α} {ρ : NodeId → List PathStep}

theorem root_not_mem_childIds (hL : t.Labelled ρ) (p : NodeId) : rootId ∉ t.childIds p := by
  intro h
  have := hL.path_length_lt h
  rw [hL.root_path] at this
  exact Nat.not_lt_zero _ this

theorem count_childIds (hL : t.Labelled ρ) {p x : NodeId} (h : x ∈ t.childIds p) :
    (t.childIds p).count x = 1 :=
  List.count_eq_one_of_mem (hL.first_steps p).of_map h

/-- Root paths grow along every chain of children, so no chain returns to where it began. -/
theorem length_lt_of_transGen (hL : t.Labelled ρ) {a b : NodeId}
    (h : Relation.TransGen (fun a b => b ∈ t.childIds a) a b) : (ρ a).length < (ρ b).length := by
  induction h with
  | single hab => exact hL.path_length_lt hab
  | tail _ hbc ih => exact Nat.lt_trans ih (hL.path_length_lt hbc)

/-- A node's first step comes right after its parent's last step, on the node's own path, so the
parent's last step admits it. -/
theorem admits_of_child (hL : t.Labelled ρ) (hchain : ∀ y, y < t.nodes.size → (ρ y).IsChain PathStep.Admits)
    {p x c : NodeId} (hx : x ∈ t.childIds p) (hc : c ∈ t.childIds x) {z b : PathStep}
    (hz : (t.ownSteps x).getLast? = some z) (hb : (t.ownSteps c).head? = some b) :
    PathStep.Admits z b := by
  obtain ⟨xs, hxs⟩ := List.getLast?_eq_some_iff.1 hz
  obtain ⟨cs, hcs⟩ := List.head?_eq_some_iff.1 hb
  have hpath : ρ c = (ρ p ++ xs) ++ z :: b :: cs := by
    rw [hL.child_path x c hc, hL.child_path p x hx, hxs, hcs]
    simp
  have := hchain c (hL.child_lt x c hc)
  rw [hpath, List.isChain_append_cons_cons] at this
  exact this.2.1

end Labelled

/-- Every node's root path has the shape of a route's when every route of the log has. -/
theorem Registry.path_isChain {t : Trie α} {ρ : NodeId → List PathStep} {L : List (Insertion α)}
    (hR : Registry t ρ L) (hshape : ∀ e ∈ L, TokensShaped e.route.tokens) :
    ∀ y, y < t.nodes.size → (ρ y).IsChain PathStep.Admits := by
  intro y hy
  by_cases hroot : y = rootId
  · subst hroot
    rw [hR.labelled.root_path]
    exact .nil
  · obtain ⟨e, he, hpre⟩ := hR.covered y hy hroot
    exact List.IsChain.prefix (hshape e he).rootPath_isChain hpre

/-- A trie that records a log of shaped routes is a tree of the shape insertion gives it. -/
theorem Registry.treeShaped {t : Trie α} {ρ : NodeId → List PathStep} {L : List (Insertion α)}
    (hR : Registry t ρ L) (hshape : ∀ e ∈ L, TokensShaped e.route.tokens) : t.TreeShaped := by
  have hL := hR.labelled
  have hchain := hR.path_isChain hshape
  -- a node other than the root has a parent, below which its own steps are those of its kind
  have hparent : ∀ x k, t.kind? x = some k → k ≠ .literal "/" ∨ x ≠ rootId →
      x ≠ rootId ∧ ∃ p, x ∈ t.childIds p := by
    intro x k hk hne
    have hx := lt_size_of_node? (kind?_eq_some.1 hk).choose_spec.1
    have hxr : x ≠ rootId := by
      rintro rfl
      rcases hne with hne | hne
      · exact hne (Option.some.inj (hk.symm.trans hL.root_kind))
      · exact hne rfl
    exact ⟨hxr, hL.has_parent x hx hxr⟩
  refine ⟨hL.root_kind, hL.root_not_mem_childIds, hL.child_lt, ?_, ?_, hL.literal_slot,
    hL.param_slot, hL.wildcard_slot, ?_, ?_⟩
  · intro x hx hxr
    obtain ⟨p, hp⟩ := hL.has_parent x hx hxr
    exact ⟨p, hL.count_childIds hp, fun q hq => hL.parent_unique hq hp⟩
  · intro x hcycle
    exact Nat.lt_irrefl _ (hL.length_lt_of_transGen hcycle)
  · -- no step follows the wildcard
    intro x hx
    obtain ⟨-, p, hp⟩ := hparent x _ hx (.inl (by simp))
    refine List.eq_nil_iff_forall_not_mem.2 fun c hc => ?_
    obtain ⟨b, cs, hcs⟩ := List.exists_cons_of_ne_nil (hL.ownSteps_ne_nil hc)
    exact hL.admits_of_child hchain hp hc (z := .wildcard) (b := b)
      (by simp [ownSteps_of_kind hx, NodeKind.steps]) (by simp [hcs])
  · intro x n q hn hq
    have hk : t.kind? x = some (.param q) := kind?_eq_some.2 ⟨n, hn, hq⟩
    obtain ⟨-, p, hp⟩ := hparent x _ hk (.inl (by simp))
    have hlast : (t.ownSteps x).getLast? = some (.param q.signature) := by
      simp [ownSteps_of_kind hk, NodeKind.steps]
    refine ⟨List.eq_nil_iff_forall_not_mem.2 fun c hc => ?_, fun k c hkc => ?_⟩
    · -- a parameter child would put two parameter steps side by side
      obtain ⟨q', -, hq'⟩ := hL.head_ownSteps_param hn hc
      exact hL.admits_of_child hchain hp (mem_childIds.2 ⟨n, hn, .inr (.inl hc)⟩) hlast hq'
    · -- after a parameter step only `/` comes
      exact hL.admits_of_child hchain hp (mem_childIds.2 ⟨n, hn, .inl ⟨k, hkc⟩⟩) hlast
        (hL.head_ownSteps_literal hn hkc)

end Trie

namespace Router

variable {α : Type}

/-- The arena of every router reachable by additions is a tree of the shape insertion gives it. -/
theorem reachable_treeShaped {c : Config} {r : Router α} (h : Reachable c r) : r.trie.TreeShaped := by
  obtain ⟨L, hL, hshape⟩ := h.builtBy
  obtain ⟨ρ, hR⟩ := hL.registry
  exact hR.treeShaped hshape

/-- Four templates and a refused one. The arena splits the text `a/b/` into `a/` and `b/` with
the children `c` and `e`, puts the parameter `:x` beside `b/` below `a/`, and the wildcard below
`files/`; the refused template leaves no node. It is a tree. -/
theorem registered_arena_treeShaped :
    let regs : List (String × String × Nat) := [("GET", "/a/b/c", 1), ("GET", "/a/b/e", 2),
      ("GET", "/a/:x/d", 3), ("ALL", "/files/*", 4), ("GET", "/bad/*/x", 5)]
    let r := ((Router.new {} : Router Nat).addAll regs).1
    Reachable {} r ∧ r.trie.TreeShaped ∧
      ((Router.new {} : Router Nat).addAll regs).2 = false ∧ r.trie.nodes.size = 9 ∧
      r.trie.childIds 0 = [4, 7] ∧ r.trie.text 4 = "a/" ∧ r.trie.childIds 4 = [2, 5] ∧
      r.trie.text 2 = "b/" ∧ r.trie.childIds 2 = [1, 3] ∧ r.trie.childIds 7 = [8] := by
  intro regs r
  have hr : Reachable {} r := Reachable.new.addAll regs
  exact ⟨hr, reachable_treeShaped hr, by decide +kernel⟩

end Router

end Routing
