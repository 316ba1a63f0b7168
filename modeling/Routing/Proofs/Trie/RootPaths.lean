import Mathlib.Data.Finset.Card
import Routing.Proofs.Trie.Labelling
/-!
# Enumerating root paths

`Trie.rootPaths` lists the nodes below the root with their root paths, walking down at most as
many levels as the arena has nodes. Under a labelling it lists exactly the nodes of the arena,
each with its label: every entry carries the label of its node (`mem_pathsBelow`), and every node
is listed, since a node lies fewer levels below the root than there are nodes
(`mem_pathsBelow_of_descends`, counting the nodes met on the way down). So `rootPath?` reads the
labelling back (`rootPath?_eq`).
-/

namespace Routing

namespace Trie

variable {α : Type} {t : Trie α} {ρ : NodeId → List PathStep}

/-- Every entry listed below a node is a node of the arena with its label. -/
theorem mem_pathsBelow (hL : t.Labelled ρ) :
    ∀ fuel a y path, (y, path) ∈ t.pathsBelow fuel a (ρ a) → path = ρ y ∧ y < t.nodes.size := by
  intro fuel
  induction fuel with
  | zero => simp [pathsBelow]
  | succ fuel ih =>
    intro a y path h
    simp only [pathsBelow, List.mem_flatMap, List.mem_cons] at h
    obtain ⟨c, hc, h | h⟩ := h
    · obtain ⟨rfl, rfl⟩ := Prod.mk.inj h
      exact ⟨(hL.child_path a y hc).symm, hL.child_lt a y hc⟩
    · rw [← hL.child_path a c hc] at h
      exact ih c y path h

open Classical in
/-- A node below `a` is listed below `a` when the fuel covers the nodes met on the way down. -/
theorem mem_pathsBelow_of_descends (hL : t.Labelled ρ) :
    ∀ fuel a x, t.Descends a x → a ≠ x →
      ((Finset.range t.nodes.size).filter fun y => t.Descends a y ∧ t.Descends y x ∧ y ≠ x).card ≤ fuel →
      (x, ρ x) ∈ t.pathsBelow fuel a (ρ a) := by
  intro fuel
  induction fuel with
  | zero =>
    intro a x hax hne hcard
    -- `a` itself is met on the way down
    have ha : a < t.nodes.size := by
      cases hax with
      | refl => exact absurd rfl hne
      | child hc _ => exact lt_size_of_node? (node?_of_mem_childIds hc).choose_spec
    have hmem : a ∈ (Finset.range t.nodes.size).filter
        fun y => t.Descends a y ∧ t.Descends y x ∧ y ≠ x :=
      Finset.mem_filter.2 ⟨Finset.mem_range.2 ha, .refl a, hax, hne⟩
    have := Finset.card_pos.2 ⟨a, hmem⟩
    omega
  | succ fuel ih =>
    intro a x hax hne hcard
    cases hax with
    | refl => exact absurd rfl hne
    | @child _ c _ hc hcx =>
      simp only [pathsBelow, List.mem_flatMap, List.mem_cons]
      refine ⟨c, hc, ?_⟩
      rw [← hL.child_path a c hc]
      by_cases hc' : c = x
      · subst hc'
        exact .inl rfl
      · refine .inr (ih c x hcx hc' ?_)
        -- the nodes met below `c` are those met below `a`, less `a` itself
        have ha : a < t.nodes.size := lt_size_of_node? (node?_of_mem_childIds hc).choose_spec
        have hsub : ((Finset.range t.nodes.size).filter fun y => t.Descends c y ∧ t.Descends y x ∧ y ≠ x) ⊆
            ((Finset.range t.nodes.size).filter
              fun y => t.Descends a y ∧ t.Descends y x ∧ y ≠ x).erase a := by
          intro y hy
          obtain ⟨hyr, hcy, hyx, hyne⟩ := Finset.mem_filter.1 hy
          refine Finset.mem_erase.2 ⟨?_, Finset.mem_filter.2 ⟨hyr, .child hc hcy, hyx, hyne⟩⟩
          rintro rfl
          have h₁ := hL.path_length_lt hc
          have h₂ := (hL.descends_prefix hcy).length_le
          omega
        have hmem : a ∈ (Finset.range t.nodes.size).filter
            fun y => t.Descends a y ∧ t.Descends y x ∧ y ≠ x :=
          Finset.mem_filter.2 ⟨Finset.mem_range.2 ha, .refl a, .child hc hcx, hne⟩
        have := Finset.card_le_card hsub
        rw [Finset.card_erase_of_mem hmem] at this
        omega

theorem lookup_eq_of_mem {x : NodeId} {v : List PathStep} :
    ∀ {l : List (NodeId × List PathStep)}, (x, v) ∈ l → (∀ w, (x, w) ∈ l → w = v) →
      l.lookup x = some v
  | [], h, _ => absurd h List.not_mem_nil
  | (y, w) :: l, hmem, huniq => by
    rw [List.lookup_cons]
    by_cases hxy : x = y
    · subst hxy
      simp [huniq w List.mem_cons_self]
    · have hb : (x == y) = false := beq_eq_false_iff_ne.2 hxy
      rw [hb]
      rcases List.mem_cons.1 hmem with h | h
      · exact absurd (Prod.mk.inj h).1 hxy
      · exact lookup_eq_of_mem h fun w' hw' => huniq w' (List.mem_cons_of_mem _ hw')

open Classical in
/-- Every node of a labelled arena is listed with its label. -/
theorem mem_rootPaths (hL : t.Labelled ρ) {x : NodeId} (hx : x < t.nodes.size) :
    (x, ρ x) ∈ t.rootPaths := by
  unfold rootPaths
  by_cases hxr : x = rootId
  · subst hxr
    rw [hL.root_path]
    exact List.mem_cons_self
  · refine List.mem_cons_of_mem _ ?_
    have h := mem_pathsBelow_of_descends hL t.nodes.size rootId x (hL.reach x hx) (Ne.symm hxr)
      (le_of_le_of_eq (Finset.card_filter_le _ _) (Finset.card_range _))
    rwa [hL.root_path] at h

/-- Every entry of the list is a node of the arena with its label. -/
theorem of_mem_rootPaths (hL : t.Labelled ρ) {y : NodeId} {path : List PathStep}
    (h : (y, path) ∈ t.rootPaths) : path = ρ y ∧ y < t.nodes.size := by
  rcases List.mem_cons.1 h with h | h
  · obtain ⟨rfl, rfl⟩ := Prod.mk.inj h
    exact ⟨hL.root_path.symm, hL.root_lt⟩
  · rw [← hL.root_path] at h
    exact mem_pathsBelow hL _ _ _ _ h

/-- The root path that `rootPath?` reads off the trie is the label of the node. -/
theorem rootPath?_eq (hL : t.Labelled ρ) {x : NodeId} (hx : x < t.nodes.size) :
    t.rootPath? x = some (ρ x) :=
  lookup_eq_of_mem (mem_rootPaths hL hx) fun _ hw => (of_mem_rootPaths hL hw).1

end Trie

end Routing
