import Mathlib.Logic.Function.Basic
import Routing.Trie.Insert
import Routing.Proofs.Trie.Labelling
/-!
# How the trie grows

Insertion changes the arena by three kinds of edit, and each keeps a labelling of it:

* `hang`: a new childless node is pushed and entered into a slot of an existing node (a new
  literal, parameter or wildcard child). Its path is its parent's path followed by its own steps,
  and those steps must begin differently from every child the parent already has.
* `split`: a literal child is cut in two; a new node with the head of its text takes its place
  below the parent, and the child keeps its id and the tail of its text below the new node. No
  path of an existing node changes.
* `reshape`: a node is changed in place without touching what it reads or its children (the
  handler table of a node that ends a route, or the texts merged into a parameter node).

Each edit also keeps every existing node's handlers and gives new nodes none (`Extends`).
-/

namespace Routing

namespace Trie

open Routing.Regex

variable {α : Type}

/-- `t'` grew from `t`: the arena only got longer, the old nodes keep their paths and handler
tables, and the new nodes have no handler table yet. -/
structure Extends (t t' : Trie α) (ρ ρ' : NodeId → List PathStep) : Prop where
  size_le : t.nodes.size ≤ t'.nodes.size
  path_eq : ∀ x, x < t.nodes.size → ρ' x = ρ x
  handlers_eq : ∀ x, x < t.nodes.size → (t'.node? x).bind Node.handlers = (t.node? x).bind Node.handlers
  handlers_new : ∀ x, t.nodes.size ≤ x → (t'.node? x).bind Node.handlers = none

theorem Extends.refl (t : Trie α) (ρ : NodeId → List PathStep) : Extends t t ρ ρ :=
  ⟨Nat.le_refl _, fun _ _ => rfl, fun _ _ => rfl, fun x hx => by
    simp [node?, Array.getElem?_eq_none hx]⟩

theorem Extends.trans {t₁ t₂ t₃ : Trie α} {ρ₁ ρ₂ ρ₃ : NodeId → List PathStep}
    (h₁ : Extends t₁ t₂ ρ₁ ρ₂) (h₂ : Extends t₂ t₃ ρ₂ ρ₃) : Extends t₁ t₃ ρ₁ ρ₃ where
  size_le := Nat.le_trans h₁.size_le h₂.size_le
  path_eq x hx := (h₂.path_eq x (Nat.lt_of_lt_of_le hx h₁.size_le)).trans (h₁.path_eq x hx)
  handlers_eq x hx := (h₂.handlers_eq x (Nat.lt_of_lt_of_le hx h₁.size_le)).trans (h₁.handlers_eq x hx)
  handlers_new x hx := by
    rcases Nat.lt_or_ge x t₂.nodes.size with hlt | hge
    · exact (h₂.handlers_eq x hlt).trans (h₁.handlers_new x hx)
    · exact h₂.handlers_new x hge

/-! ## Reading an edited arena -/

theorem node?_push (t : Trie α) (n : Node α) (y : NodeId) :
    (t.push n).1.node? y = if y = t.nodes.size then some n else t.node? y := by
  simp [push, node?, Array.getElem?_push]

theorem node?_modify (t : Trie α) (x : NodeId) (f : Node α → Node α) (y : NodeId) :
    (t.modify x f).node? y = if y = x then (t.node? x).map f else t.node? y := by
  by_cases h : y = x
  · subst h; simp [node?_modify_self]
  · simp [node?_modify_ne t x y f (Ne.symm h), h]

theorem kind?_congr {t t' : Trie α} {y : NodeId} (h : t'.node? y = t.node? y) :
    t'.kind? y = t.kind? y := by
  simp [kind?, h]

theorem ownSteps_congr {t t' : Trie α} {y : NodeId} (h : t'.kind? y = t.kind? y) :
    t'.ownSteps y = t.ownSteps y := by
  simp [ownSteps_eq, h]

theorem childIds_congr {t t' : Trie α} {y : NodeId} (h : t'.node? y = t.node? y) :
    t'.childIds y = t.childIds y := by
  simp [childIds_eq, h]

theorem childIds_of_node? {t : Trie α} {y : NodeId} {n : Node α} (h : t.node? y = some n) :
    t.childIds y = n.childList := by
  simp [childIds_eq, h]

theorem childIds_of_size_le {t : Trie α} {y : NodeId} (h : t.nodes.size ≤ y) : t.childIds y = [] := by
  simp [childIds_eq, node?, Array.getElem?_eq_none h]

/-! ## Hanging a new leaf -/

section Hang

variable {t : Trie α} {ρ : NodeId → List PathStep} {p : NodeId} {n : Node α} {K : NodeKind}
  {g : Node α → Node α}

/-- The arena after pushing a node of kind `K` and changing `p` by `g`. -/
theorem node?_hang (hp : t.node? p = some n) (y : NodeId) :
    ((t.push { kind := K }).1.modify p g).node? y =
      if y = p then some (g n) else if y = t.nodes.size then some { kind := K } else t.node? y := by
  have hlt := lt_size_of_node? hp
  rw [node?_modify, node?_push, node?_push]
  by_cases hy : y = p
  · subst hy; simp [hp, Nat.ne_of_lt hlt]
  · simp [hy]

theorem size_hang : ((t.push { kind := K }).1.modify p g).nodes.size = t.nodes.size + 1 := by
  simp

variable (hp : t.node? p = some n) (hkind : (g n).kind = n.kind)
  (hperm : (g n).childList.Perm (t.nodes.size :: n.childList))
include hp hkind hperm

omit hperm in
theorem kind?_hang (y : NodeId) :
    ((t.push { kind := K }).1.modify p g).kind? y = if y = t.nodes.size then some K else t.kind? y := by
  have hlt := lt_size_of_node? hp
  simp only [kind?, node?_hang hp y]
  by_cases hy : y = p
  · subst hy; simp [Nat.ne_of_lt hlt, hkind, hp]
  · by_cases hx : y = t.nodes.size <;> simp [hy, hx, (Nat.ne_of_lt hlt).symm]

omit hperm in
theorem ownSteps_hang (y : NodeId) :
    ((t.push { kind := K }).1.modify p g).ownSteps y = if y = t.nodes.size then K.steps else t.ownSteps y := by
  rw [ownSteps_eq, kind?_hang hp hkind, ownSteps_eq]
  by_cases hy : y = t.nodes.size <;> simp [hy]

omit hkind hperm in
theorem childIds_hang (y : NodeId) :
    ((t.push { kind := K }).1.modify p g).childIds y =
      if y = p then (g n).childList else if y = t.nodes.size then [] else t.childIds y := by
  have hlt := lt_size_of_node? hp
  rw [childIds_eq, node?_hang hp y]
  by_cases hy : y = p
  · simp [hy]
  · by_cases hx : y = t.nodes.size
    · simp [hx, Node.childList, (Nat.ne_of_lt hlt).symm]
    · simp [hy, hx, childIds_eq]

omit hkind in
theorem mem_childList_hang {c : NodeId} : c ∈ (g n).childList ↔ c = t.nodes.size ∨ c ∈ t.childIds p := by
  rw [hperm.mem_iff, List.mem_cons, childIds_of_node? hp]

/-- Hanging a leaf whose steps begin differently from every child of `p` keeps the labelling,
the leaf labelled by `p`'s path and its own steps. -/
theorem labelled_hang (hL : t.Labelled ρ)
    (hfresh : ∀ c ∈ t.childIds p, (t.ownSteps c).head? ≠ K.steps.head?)
    (hlit : ∀ k c, (k, c) ∈ (g n).literals →
      (k, c) ∈ n.literals ∨ c = t.nodes.size ∧ ∃ s, K = .literal s ∧ s.toList.head? = some k)
    (hpar : ∀ c ∈ (g n).params, c ∈ n.params ∨ c = t.nodes.size ∧ ∃ q, K = .param q)
    (hwild : ∀ c, (g n).wildcard = some c → n.wildcard = some c ∨ c = t.nodes.size ∧ K = .wildcard)
    (hregex : ∀ q c, K = .param q → q.constraint = some c → Pattern.parse c.source = .ok c.regex) :
    ((t.push { kind := K }).1.modify p g).Labelled (Function.update ρ t.nodes.size (ρ p ++ K.steps)) := by
  have hpx : p ≠ t.nodes.size := Nat.ne_of_lt (lt_size_of_node? hp)
  have hold : ∀ q c, c ∈ t.childIds q → c ≠ t.nodes.size := fun q c hc =>
    Nat.ne_of_lt (hL.child_lt q c hc)
  have hkind' := kind?_hang (K := K) hp hkind
  have hown' := ownSteps_hang (K := K) hp hkind
  have hchild' := childIds_hang (K := K) (g := g) hp
  have hnode' := node?_hang (K := K) (g := g) hp
  have h0 : rootId ≠ t.nodes.size := Nat.ne_of_lt hL.root_lt
  constructor
  case root_kind =>
    rw [hkind', if_neg h0]; exact hL.root_kind
  case root_path =>
    rw [Function.update_of_ne h0]; exact hL.root_path
  case child_lt =>
    intro q c hc
    rw [hchild'] at hc
    rw [size_hang]
    split_ifs at hc with h1 h2
    · rcases (mem_childList_hang hp hperm).1 hc with rfl | hc
      · exact Nat.lt_succ_self _
      · exact Nat.lt_succ_of_lt (hL.child_lt p c hc)
    · simp at hc
    · exact Nat.lt_succ_of_lt (hL.child_lt q c hc)
  case child_path =>
    intro q c hc
    rw [hchild'] at hc
    split_ifs at hc with h1 h2
    · subst h1
      rcases (mem_childList_hang hp hperm).1 hc with rfl | hc
      · rw [Function.update_self, Function.update_of_ne hpx, hown', if_pos rfl]
      · rw [Function.update_of_ne (hold _ _ hc), Function.update_of_ne hpx, hown', if_neg (hold _ _ hc)]
        exact hL.child_path q c hc
    · simp at hc
    · rw [Function.update_of_ne (hold _ _ hc), Function.update_of_ne h2, hown', if_neg (hold _ _ hc)]
      exact hL.child_path q c hc
  case has_parent =>
    intro y hy hy0
    rw [size_hang] at hy
    by_cases hyx : y = t.nodes.size
    · refine ⟨p, ?_⟩
      rw [hchild', if_pos rfl]
      exact (mem_childList_hang hp hperm).2 (.inl hyx)
    · obtain ⟨q, hq⟩ := hL.has_parent y (by omega) hy0
      refine ⟨q, ?_⟩
      rw [hchild']
      by_cases hqp : q = p
      · subst hqp; rw [if_pos rfl]; exact (mem_childList_hang hp hperm).2 (.inr hq)
      · have hqx : q ≠ t.nodes.size := fun h => by
          rw [h, childIds_of_size_le (Nat.le_refl _)] at hq; simp at hq
        rw [if_neg hqp, if_neg hqx]; exact hq
  case first_steps =>
    intro q
    rw [hchild']
    split_ifs with h1 h2
    · subst h1
      have hmap : ∀ c ∈ t.childIds q,
          (((t.push { kind := K }).1.modify q g).ownSteps c).head? = (t.ownSteps c).head? := by
        intro c hc; rw [hown', if_neg (hold _ _ hc)]
      rw [List.Perm.nodup_iff (hperm.map _), List.map_cons, List.nodup_cons, hown', if_pos rfl,
        ← childIds_of_node? hp, List.map_congr_left hmap]
      refine ⟨?_, hL.first_steps q⟩
      intro hmem
      obtain ⟨c, hc, he⟩ := List.mem_map.1 hmem
      exact hfresh c hc he
    · simp
    · have hmap : ∀ c ∈ t.childIds q,
          (((t.push { kind := K }).1.modify p g).ownSteps c).head? = (t.ownSteps c).head? := by
        intro c hc; rw [hown', if_neg (hold _ _ hc)]
      rw [List.map_congr_left hmap]
      exact hL.first_steps q
  case literal_slot =>
    intro q m hm k c hkc
    rw [hnode'] at hm
    split_ifs at hm with h1 h2
    · cases hm
      rcases hlit k c hkc with hkc | ⟨rfl, s, rfl, hs⟩
      · obtain ⟨s, hs, hk⟩ := hL.literal_slot p n hp k c hkc
        have hc : c ≠ t.nodes.size := hold p c (childIds_of_node? hp ▸ Node.mem_childList.2 (.inl ⟨k, hkc⟩))
        exact ⟨s, by rw [hkind', if_neg hc]; exact hs, hk⟩
      · exact ⟨s, by rw [hkind', if_pos rfl], hs⟩
    · cases hm; simp at hkc
    · obtain ⟨s, hs, hk⟩ := hL.literal_slot q m hm k c hkc
      have hc : c ≠ t.nodes.size := hold q c (childIds_of_node? hm ▸ Node.mem_childList.2 (.inl ⟨k, hkc⟩))
      exact ⟨s, by rw [hkind', if_neg hc]; exact hs, hk⟩
  case param_slot =>
    intro q m hm c hc
    rw [hnode'] at hm
    split_ifs at hm with h1 h2
    · cases hm
      rcases hpar c hc with hc | ⟨rfl, r, rfl⟩
      · obtain ⟨r, hr⟩ := hL.param_slot p n hp c hc
        have hc' : c ≠ t.nodes.size := hold p c (childIds_of_node? hp ▸ Node.mem_childList.2 (.inr (.inl hc)))
        exact ⟨r, by rw [hkind', if_neg hc']; exact hr⟩
      · exact ⟨r, by rw [hkind', if_pos rfl]⟩
    · cases hm; simp at hc
    · obtain ⟨r, hr⟩ := hL.param_slot q m hm c hc
      have hc' : c ≠ t.nodes.size := hold q c (childIds_of_node? hm ▸ Node.mem_childList.2 (.inr (.inl hc)))
      exact ⟨r, by rw [hkind', if_neg hc']; exact hr⟩
  case wildcard_slot =>
    intro q m hm c hc
    rw [hnode'] at hm
    split_ifs at hm with h1 h2
    · cases hm
      rcases hwild c hc with hc | ⟨rfl, rfl⟩
      · have hc' : c ≠ t.nodes.size := hold p c (childIds_of_node? hp ▸ Node.mem_childList.2 (.inr (.inr hc)))
        rw [hkind', if_neg hc']; exact hL.wildcard_slot p n hp c hc
      · rw [hkind', if_pos rfl]
    · cases hm; simp at hc
    · have hc' : c ≠ t.nodes.size := hold q c (childIds_of_node? hm ▸ Node.mem_childList.2 (.inr (.inr hc)))
      rw [hkind', if_neg hc']; exact hL.wildcard_slot q m hm c hc
  case param_regex =>
    intro y q c hy hq
    rw [hkind'] at hy
    split_ifs at hy with hyx
    · cases hy; exact hregex q c rfl hq
    · exact hL.param_regex y q c hy hq

omit hkind hperm in
/-- Hanging a leaf keeps the old nodes' paths and handlers; the leaf has none. -/
theorem extends_hang (hhandlers : (g n).handlers = n.handlers) :
    Extends t ((t.push { kind := K }).1.modify p g) ρ (Function.update ρ t.nodes.size (ρ p ++ K.steps)) where
  size_le := by simp
  path_eq x hx := Function.update_of_ne (Nat.ne_of_lt hx) _ _
  handlers_eq x hx := by
    rw [node?_hang hp x]
    by_cases hxp : x = p
    · subst hxp; simp [hp, hhandlers]
    · simp [hxp, Nat.ne_of_lt hx]
  handlers_new x hx := by
    rw [node?_hang hp x]
    have hlt := lt_size_of_node? hp
    have hxp : x ≠ p := Nat.ne_of_gt (Nat.lt_of_lt_of_le hlt hx)
    by_cases hxs : x = t.nodes.size
    · simp [hxs, (Nat.ne_of_lt hlt).symm]
    · simp [hxp, hxs, node?, Array.getElem?_eq_none hx]

end Hang

/-! ## Keyed slots -/

theorem setKey_of_mem {β : Type} {xs : List (Char × β)} {k : Char} {v w : β} (h : (k, w) ∈ xs) :
    setKey xs k v = xs.map fun e => if e.1 == k then (k, v) else e := by
  have hany : xs.any (·.1 == k) = true := List.any_eq_true.2 ⟨(k, w), h, by simp⟩
  simp [setKey, hany]

theorem setKey_of_lookup_eq_none {β : Type} {xs : List (Char × β)} {k : Char} {v : β}
    (h : xs.lookup k = none) : setKey xs k v = xs ++ [(k, v)] := by
  have hany : xs.any (·.1 == k) = false := by
    rw [List.lookup_eq_none_iff] at h
    rw [Bool.eq_false_iff]
    intro ht
    obtain ⟨e, he, hk⟩ := List.any_eq_true.1 ht
    have := h e he
    simp_all
  simp [setKey, hany]

theorem mem_of_lookup_eq_some {κ β : Type} [BEq κ] [LawfulBEq κ] {xs : List (κ × β)} {k : κ} {v : β}
    (h : xs.lookup k = some v) : (k, v) ∈ xs := by
  obtain ⟨l₁, l₂, rfl, -⟩ := List.lookup_eq_some_iff.1 h
  simp

/-! ## Splitting a literal child -/

section Split

variable {t : Trie α} {ρ : NodeId → List PathStep} {parent child : NodeId} {np nc : Node α}
  {s : String} {cut : Nat} {k d : Char} {hd tl : List Char}

/-- The literal node that takes a split child's place: the head of the text, with the child
below it. -/
def splitHead (k d : Char) (hd : List Char) (child : NodeId) : Node α :=
  { kind := .literal (String.ofList (k :: hd)), literals := [(d, child)] }

/-- The arena a split leaves: the child keeps the tail `d :: tl` of its text, and the head node,
with text `k :: hd`, takes its place below the parent. -/
def splitArena (t : Trie α) (parent child : NodeId) (k d : Char) (hd tl : List Char) : Trie α :=
  ((t.modify child fun n => { n with kind := .literal (String.ofList (d :: tl)) }).push
    (splitHead k d hd child)).1.modify parent fun n => { n with literals := setKey n.literals k t.nodes.size }

theorem split_eq (hs : t.kind? child = some (.literal s))
    (htake : Text.takeBytes s.toList cut = k :: hd) (hdrop : Text.dropBytes s.toList cut = d :: tl) :
    t.split parent child cut = (t.splitArena parent child k d hd tl, t.nodes.size) := by
  simp [split, splitArena, text_of_literal hs, htake, hdrop, splitHead]

variable (hpar : t.node? parent = some np) (hch : t.node? child = some nc) (hne : parent ≠ child)
include hpar hch hne

theorem node?_split (k d : Char) (hd tl : List Char) (y : NodeId) :
    (t.splitArena parent child k d hd tl).node? y =
      if y = parent then some { np with literals := setKey np.literals k t.nodes.size }
      else if y = child then some { nc with kind := .literal (String.ofList (d :: tl)) }
      else if y = t.nodes.size then some (splitHead k d hd child) else t.node? y := by
  have hpl := Nat.ne_of_lt (lt_size_of_node? hpar)
  have hcl := Nat.ne_of_lt (lt_size_of_node? hch)
  rw [splitArena, node?_modify, node?_push, node?_push, node?_modify, node?_modify]
  by_cases hyp : y = parent
  · subst hyp; simp [hpar, hne, hpl]
  · by_cases hyc : y = child
    · subst hyc; simp [hch, hyp, hcl]
    · simp [hyp, hyc]

variable (hL : t.Labelled ρ) (hlit : (k, child) ∈ np.literals) (hs : t.kind? child = some (.literal s))
  (htake : s.toList.take cut = k :: hd) (hdrop : s.toList.drop cut = d :: tl)
include hL hlit hs htake hdrop

omit hL htake hdrop in
theorem kind?_split (d : Char) (hd tl : List Char) (y : NodeId) :
    (t.splitArena parent child k d hd tl).kind? y =
      if y = child then some (.literal (String.ofList (d :: tl)))
      else if y = t.nodes.size then some (.literal (String.ofList (k :: hd))) else t.kind? y := by
  have hpl := Nat.ne_of_lt (lt_size_of_node? hpar)
  simp only [kind?, node?_split hpar hch hne k d hd tl y]
  by_cases hyp : y = parent
  · subst hyp; simp [hpar, hne, hpl]
  · by_cases hyc : y = child
    · subst hyc; simp [hyp]
    · by_cases hyx : y = t.nodes.size
      · subst hyx; simp [hyp, hyc, splitHead]
      · simp [hyp, hyc, hyx]

omit htake hdrop in
theorem childIds_split (d : Char) (hd tl : List Char) (y : NodeId) :
    (t.splitArena parent child k d hd tl).childIds y =
      if y = parent then (t.childIds parent).map (fun c => if c = child then t.nodes.size else c)
      else if y = t.nodes.size then [child] else t.childIds y := by
  have hcl := Nat.ne_of_lt (lt_size_of_node? hch)
  rw [childIds_eq, node?_split hpar hch hne k d hd tl y]
  by_cases hyp : y = parent
  · rw [if_pos hyp, if_pos hyp]
    -- only the literal entry keyed `k` names the child, and it now names the new head
    have hkey := hL.literal_key_iff hpar hlit
    have hnotpar : child ∉ np.params := fun h => by
      obtain ⟨q, hq⟩ := hL.param_slot _ np hpar child h
      rw [hs] at hq; cases hq
    have hnotwild : np.wildcard ≠ some child := fun h => by
      have := hL.wildcard_slot _ np hpar child h
      rw [hs] at this; cases this
    simp only [Option.map_some, Option.getD_some, childIds_of_node? hpar, Node.childList,
      setKey_of_mem hlit, List.map_append, List.map_map]
    congr 1
    · congr 1
      · apply List.map_congr_left
        rintro ⟨k', c'⟩ he
        have hiff := hkey (k', c') he
        by_cases hk' : k' = k
        · have hc' : c' = child := hiff.1 hk'
          simp [hk', hc']
        · have hc' : c' ≠ child := fun h => hk' (hiff.2 h)
          simp [hk', hc']
      · conv_lhs => rw [← List.map_id np.params]
        refine List.map_congr_left fun c' hc' => ?_
        exact (if_neg fun (h : c' = child) => hnotpar (h ▸ hc')).symm
    · conv_lhs => rw [← List.map_id np.wildcard.toList]
      refine List.map_congr_left fun c' hc' => ?_
      exact (if_neg fun (h : c' = child) => hnotwild (h ▸ Option.mem_toList.1 hc')).symm
  · by_cases hyc : y = child
    · subst hyc; simp [hyp, childIds_of_node? hch, Node.childList, hcl]
    · by_cases hyx : y = t.nodes.size
      · subst hyx; simp [hyp, hyc, splitHead, Node.childList]
      · simp [hyp, hyc, hyx, childIds_eq]

omit hL htake hdrop in
theorem ownSteps_split (d : Char) (hd tl : List Char) (y : NodeId) :
    (t.splitArena parent child k d hd tl).ownSteps y =
      if y = child then (d :: tl).map .char
      else if y = t.nodes.size then (k :: hd).map .char else t.ownSteps y := by
  rw [ownSteps_eq, kind?_split hpar hch hne hlit hs d hd tl, ownSteps_eq]
  by_cases hyc : y = child
  · simp [hyc, NodeKind.steps]
  · by_cases hyx : y = t.nodes.size
    · subst hyx; simp [hyc, NodeKind.steps]
    · simp [hyc, hyx]

/-- Splitting a literal child after its first `cut` characters keeps the labelling; the new
head is labelled by the parent's path and the head of the text. -/
theorem labelled_split :
    (t.splitArena parent child k d hd tl).Labelled
      (Function.update ρ t.nodes.size (ρ parent ++ (k :: hd).map .char)) := by
  have hpc : child ∈ t.childIds parent := mem_childIds.2 ⟨np, hpar, .inl ⟨k, hlit⟩⟩
  have hcx : child ≠ t.nodes.size := Nat.ne_of_lt (lt_size_of_node? hch)
  have hpx : parent ≠ t.nodes.size := Nat.ne_of_lt (lt_size_of_node? hpar)
  have hold : ∀ q c, c ∈ t.childIds q → c ≠ t.nodes.size := fun q c hc =>
    Nat.ne_of_lt (hL.child_lt q c hc)
  -- the child has no other parent, and is not a child of itself
  have honly : ∀ q c, c ∈ t.childIds q → q ≠ parent → c ≠ child := fun q c hc hq hcc =>
    hq (hL.parent_unique (hcc ▸ hc) hpc)
  have hwhole : s.toList = k :: hd ++ d :: tl := by rw [← htake, ← hdrop, List.take_append_drop]
  have hkind' := kind?_split hpar hch hne hlit hs d hd tl
  have hown' := ownSteps_split hpar hch hne hlit hs d hd tl
  have hchild' := childIds_split hpar hch hne hL hlit hs d hd tl
  have hnode' := node?_split hpar hch hne k d hd tl
  have hroot : rootId ≠ child := fun h => by
    have := hL.path_length_lt hpc
    rw [← h, hL.root_path] at this
    simp at this
  have h0 : rootId ≠ t.nodes.size := Nat.ne_of_lt hL.root_lt
  constructor
  case root_kind =>
    rw [hkind', if_neg hroot, if_neg h0]; exact hL.root_kind
  case root_path =>
    rw [Function.update_of_ne h0]; exact hL.root_path
  case child_lt =>
    intro q c hc
    rw [hchild'] at hc
    simp only [splitArena, size_modify, size_push]
    split_ifs at hc with h1 h2
    · obtain ⟨y, hy, rfl⟩ := List.mem_map.1 hc
      split_ifs
      · exact Nat.lt_succ_self _
      · exact Nat.lt_succ_of_lt (hL.child_lt _ _ hy)
    · rw [List.mem_singleton.1 hc]; exact Nat.lt_succ_of_lt (lt_size_of_node? hch)
    · exact Nat.lt_succ_of_lt (hL.child_lt _ _ hc)
  case child_path =>
    intro q c hc
    rw [hchild'] at hc
    split_ifs at hc with h1 h2
    · subst h1
      obtain ⟨y, hy, rfl⟩ := List.mem_map.1 hc
      by_cases hyc : y = child
      · rw [if_pos hyc, Function.update_self, Function.update_of_ne hpx, hown', if_neg hcx.symm,
          if_pos rfl]
      · rw [if_neg hyc, Function.update_of_ne (hold _ _ hy), Function.update_of_ne hpx, hown',
          if_neg hyc, if_neg (hold _ _ hy)]
        exact hL.child_path _ _ hy
    · subst h2
      rw [List.mem_singleton.1 hc, Function.update_of_ne hcx, Function.update_self, hown', if_pos rfl,
        hL.child_path _ _ hpc, ownSteps_of_kind hs, NodeKind.steps, hwhole]
      simp
    · have hcc := honly q c hc h1
      have hq : q ≠ t.nodes.size := fun h => by
        rw [h, childIds_of_size_le (Nat.le_refl _)] at hc; simp at hc
      rw [Function.update_of_ne (hold _ _ hc), Function.update_of_ne hq, hown', if_neg hcc,
        if_neg (hold _ _ hc)]
      exact hL.child_path _ _ hc
  case has_parent =>
    intro y hy hy0
    simp only [splitArena, size_modify, size_push] at hy
    by_cases hyx : y = t.nodes.size
    · refine ⟨parent, ?_⟩
      rw [hchild', if_pos rfl]
      exact List.mem_map.2 ⟨child, hpc, by rw [if_pos rfl, hyx]⟩
    · by_cases hyc : y = child
      · refine ⟨t.nodes.size, ?_⟩
        rw [hchild', if_neg hpx.symm, if_pos rfl, hyc]
        exact List.mem_singleton_self _
      · obtain ⟨q, hq⟩ := hL.has_parent y (by unfold NodeId at *; omega) hy0
        refine ⟨q, ?_⟩
        rw [hchild']
        by_cases hqp : q = parent
        · rw [if_pos hqp]
          subst hqp
          exact List.mem_map.2 ⟨y, hq, if_neg hyc⟩
        · have hqx : q ≠ t.nodes.size := fun h => by
            rw [h, childIds_of_size_le (Nat.le_refl _)] at hq; simp at hq
          rw [if_neg hqp, if_neg hqx]; exact hq
  case first_steps =>
    intro q
    rw [hchild']
    split_ifs with h1 h2
    · subst h1
      rw [List.map_map]
      convert hL.first_steps q using 1
      apply List.map_congr_left
      intro y hy
      by_cases hyc : y = child
      · subst hyc
        simp only [Function.comp, hown', ownSteps_of_kind hs, NodeKind.steps, hwhole]
        simp [hcx.symm]
      · simp only [Function.comp, if_neg hyc, hown', if_neg (hold _ _ hy)]
    · simp
    · have hmap : ∀ c ∈ t.childIds q,
          ((t.splitArena parent child k d hd tl).ownSteps c).head? = (t.ownSteps c).head? := by
        intro c hc
        rw [hown', if_neg (honly q c hc h1), if_neg (hold _ _ hc)]
      rw [List.map_congr_left hmap]
      exact hL.first_steps q
  case literal_slot =>
    intro q m hm k' c hkc
    rw [hnode'] at hm
    split_ifs at hm with h1 h2 h3
    · cases hm
      subst h1
      rw [setKey_of_mem hlit] at hkc
      obtain ⟨⟨k'', c''⟩, he, heq⟩ := List.mem_map.1 hkc
      by_cases hk : k'' = k
      · simp only [hk, beq_self_eq_true, if_true, Prod.mk.injEq] at heq
        obtain ⟨rfl, rfl⟩ := heq
        exact ⟨String.ofList (k :: hd), by rw [hkind', if_neg hcx.symm, if_pos rfl], by simp⟩
      · simp only [beq_iff_eq, hk, if_false] at heq
        cases heq
        have hc : c ≠ child := fun h => hk ((hL.literal_key_iff hpar hlit (k', c) he).2 h)
        obtain ⟨s', hs', hk'⟩ := hL.literal_slot q np hpar k' c he
        have hcm : c ∈ t.childIds q := mem_childIds.2 ⟨np, hpar, .inl ⟨k', he⟩⟩
        exact ⟨s', by rw [hkind', if_neg hc, if_neg (hold _ _ hcm)]; exact hs', hk'⟩
    · cases hm
      subst h2
      have hcm : c ∈ t.childIds q := mem_childIds.2 ⟨nc, hch, .inl ⟨k', hkc⟩⟩
      have hc : c ≠ q := fun h => by
        have := hL.path_length_lt hcm
        rw [h] at this; omega
      obtain ⟨s', hs', hk'⟩ := hL.literal_slot q nc hch k' c hkc
      exact ⟨s', by rw [hkind', if_neg hc, if_neg (hold _ _ hcm)]; exact hs', hk'⟩
    · cases hm
      simp only [splitHead, List.mem_singleton, Prod.mk.injEq] at hkc
      obtain ⟨rfl, rfl⟩ := hkc
      exact ⟨_, by rw [hkind', if_pos rfl], by simp⟩
    · have hcm : c ∈ t.childIds q := mem_childIds.2 ⟨m, hm, .inl ⟨k', hkc⟩⟩
      obtain ⟨s', hs', hk'⟩ := hL.literal_slot q m hm k' c hkc
      exact ⟨s', by rw [hkind', if_neg (honly q c hcm h1), if_neg (hold _ _ hcm)]; exact hs', hk'⟩
  case param_slot =>
    intro q m hm c hc
    -- a parameter child is neither the literal child nor the new literal head
    have hkeep : ∀ q m, t.node? q = some m → c ∈ m.params →
        ∃ r, (t.splitArena parent child k d hd tl).kind? c = some (.param r) := by
      intro q m hm hc
      obtain ⟨r, hr⟩ := hL.param_slot q m hm c hc
      have hcc : c ≠ child := fun h => by rw [h, hs] at hr; cases hr
      have hcm : c ∈ t.childIds q := mem_childIds.2 ⟨m, hm, .inr (.inl hc)⟩
      exact ⟨r, by rw [hkind', if_neg hcc, if_neg (hold _ _ hcm)]; exact hr⟩
    rw [hnode'] at hm
    split_ifs at hm with h1 h2 h3
    · cases hm; exact hkeep parent np hpar hc
    · cases hm; exact hkeep child nc hch hc
    · cases hm; simp [splitHead] at hc
    · exact hkeep q m hm hc
  case wildcard_slot =>
    intro q m hm c hc
    have hkeep : ∀ q m, t.node? q = some m → m.wildcard = some c →
        (t.splitArena parent child k d hd tl).kind? c = some .wildcard := by
      intro q m hm hc
      have hr := hL.wildcard_slot q m hm c hc
      have hcc : c ≠ child := fun h => by rw [h, hs] at hr; cases hr
      have hcm : c ∈ t.childIds q := mem_childIds.2 ⟨m, hm, .inr (.inr hc)⟩
      rw [hkind', if_neg hcc, if_neg (hold _ _ hcm)]; exact hr
    rw [hnode'] at hm
    split_ifs at hm with h1 h2 h3
    · cases hm; exact hkeep parent np hpar hc
    · cases hm; exact hkeep child nc hch hc
    · cases hm; simp [splitHead] at hc
    · exact hkeep q m hm hc
  case param_regex =>
    intro y r c hy hr
    rw [hkind'] at hy
    split_ifs at hy with h1 h2
    · cases hy
    · cases hy
    · exact hL.param_regex y r c hy hr

omit hL htake hdrop in
/-- Splitting keeps the old nodes' paths and handlers; the new head has none. -/
theorem extends_split :
    Extends t (t.splitArena parent child k d hd tl)
      ρ (Function.update ρ t.nodes.size (ρ parent ++ (k :: hd).map .char)) where
  size_le := by simp [splitArena]
  path_eq x hx := Function.update_of_ne (Nat.ne_of_lt hx) _ _
  handlers_eq x hx := by
    rw [node?_split hpar hch hne k d hd tl x]
    by_cases hxp : x = parent
    · subst hxp; simp [hpar]
    · by_cases hxc : x = child
      · subst hxc; simp [hxp, hch]
      · simp [hxp, hxc, Nat.ne_of_lt hx]
  handlers_new x hx := by
    rw [node?_split hpar hch hne k d hd tl x]
    have hxp : x ≠ parent := Nat.ne_of_gt (Nat.lt_of_lt_of_le (lt_size_of_node? hpar) hx)
    have hxc : x ≠ child := Nat.ne_of_gt (Nat.lt_of_lt_of_le (lt_size_of_node? hch) hx)
    by_cases hxs : x = t.nodes.size
    · subst hxs
      simp [(Nat.ne_of_lt (lt_size_of_node? hpar)).symm, (Nat.ne_of_lt (lt_size_of_node? hch)).symm,
        splitHead]
    · simp [hxp, hxc, hxs, node?, Array.getElem?_eq_none hx]

end Split

/-! ## Changing a node in place -/

section Reshape

variable {t : Trie α} {ρ : NodeId → List PathStep} {x : NodeId} {f : Node α → Node α}

/-- `k'` reads like `k`: it is `k`, or the same parameter node with other merged texts. -/
def NodeKind.Resembles (k k' : NodeKind) : Prop :=
  k' = k ∨ ∃ q ss, k = .param q ∧ k' = .param { q with sources := ss }

variable (hchildren : ∀ n, (f n).literals = n.literals ∧ (f n).params = n.params ∧ (f n).wildcard = n.wildcard)
  (hkind : ∀ n, NodeKind.Resembles n.kind (f n).kind)
include hchildren hkind

omit hkind in
theorem childIds_reshape (y : NodeId) : (t.modify x f).childIds y = t.childIds y := by
  rw [childIds_eq, childIds_eq, node?_modify]
  by_cases hy : y = x
  · subst hy
    rw [if_pos rfl]
    cases t.node? y with
    | none => rfl
    | some n =>
      obtain ⟨h1, h2, h3⟩ := hchildren n
      simp [Node.childList, h1, h2, h3]
  · simp [hy]

omit hchildren in
theorem kind?_reshape (y : NodeId) :
    (t.modify x f).kind? y = t.kind? y ∨
      ∃ q ss, t.kind? y = some (.param q) ∧ (t.modify x f).kind? y = some (.param { q with sources := ss }) := by
  simp only [kind?, node?_modify]
  by_cases hy : y = x
  · subst hy
    rw [if_pos rfl]
    cases t.node? y with
    | none => exact .inl rfl
    | some n =>
      rcases hkind n with h | ⟨q, ss, hq, h⟩
      · exact .inl (by simp [h])
      · exact .inr ⟨q, ss, by simp [hq], by simp [h]⟩
  · exact .inl (by simp [hy])

omit hchildren in
theorem ownSteps_reshape (y : NodeId) : (t.modify x f).ownSteps y = t.ownSteps y := by
  rcases kind?_reshape hkind (x := x) (t := t) y with h | ⟨q, ss, hq, h⟩
  · exact ownSteps_congr h
  · rw [ownSteps_of_kind h, ownSteps_of_kind hq]
    rfl

/-- Changing a node without touching its children or what it reads keeps the labelling. -/
theorem labelled_reshape (hL : t.Labelled ρ) : (t.modify x f).Labelled ρ := by
  have hkind' := kind?_reshape hkind (x := x) (t := t)
  have hnode' : ∀ y m, (t.modify x f).node? y = some m →
      ∃ m₀, t.node? y = some m₀ ∧ m.literals = m₀.literals ∧ m.params = m₀.params ∧ m.wildcard = m₀.wildcard := by
    intro y m hm
    rw [node?_modify] at hm
    split_ifs at hm with hy
    · subst hy
      obtain ⟨m₀, h0, rfl⟩ := Option.map_eq_some_iff.1 hm
      exact ⟨m₀, h0, hchildren m₀⟩
    · exact ⟨m, hm, rfl, rfl, rfl⟩
  -- a node that is not a parameter node keeps its kind exactly
  have hsame : ∀ y k, t.kind? y = some k → (∀ q, k ≠ .param q) → (t.modify x f).kind? y = some k := by
    intro y k hk hnp
    rcases hkind' y with h | ⟨q, ss, hq, -⟩
    · rw [h, hk]
    · rw [hk] at hq; cases hq; exact absurd rfl (hnp q)
  have hparam : ∀ y q, t.kind? y = some (.param q) → ∃ q', (t.modify x f).kind? y = some (.param q') := by
    intro y q hq
    rcases hkind' y with h | ⟨q₀, ss, -, h⟩
    · exact ⟨q, by rw [h, hq]⟩
    · exact ⟨_, h⟩
  constructor
  case root_kind =>
    exact hsame _ _ hL.root_kind (fun q h => by cases h)
  case root_path =>
    exact hL.root_path
  case child_lt =>
    intro q c hc
    rw [childIds_reshape hchildren] at hc
    rw [size_modify]; exact hL.child_lt q c hc
  case child_path =>
    intro q c hc
    rw [childIds_reshape hchildren] at hc
    rw [ownSteps_reshape hkind]; exact hL.child_path q c hc
  case has_parent =>
    intro y hy hy0
    rw [size_modify] at hy
    obtain ⟨q, hq⟩ := hL.has_parent y hy hy0
    exact ⟨q, by rw [childIds_reshape hchildren]; exact hq⟩
  case first_steps =>
    intro q
    rw [childIds_reshape hchildren]
    simp only [ownSteps_reshape hkind]
    exact hL.first_steps q
  case literal_slot =>
    intro q m hm k c hkc
    obtain ⟨m₀, h0, hl, -, -⟩ := hnode' q m hm
    obtain ⟨s, hs, hk⟩ := hL.literal_slot q m₀ h0 k c (hl ▸ hkc)
    exact ⟨s, hsame _ _ hs (fun q h => by cases h), hk⟩
  case param_slot =>
    intro q m hm c hc
    obtain ⟨m₀, h0, -, hp, -⟩ := hnode' q m hm
    obtain ⟨r, hr⟩ := hL.param_slot q m₀ h0 c (hp ▸ hc)
    exact hparam c r hr
  case wildcard_slot =>
    intro q m hm c hc
    obtain ⟨m₀, h0, -, -, hw⟩ := hnode' q m hm
    exact hsame _ _ (hL.wildcard_slot q m₀ h0 c (hw ▸ hc)) (fun q h => by cases h)
  case param_regex =>
    intro y q c hy hq
    rcases hkind' y with h | ⟨q₀, ss, hq₀, h⟩
    · exact hL.param_regex y q c (h ▸ hy) hq
    · rw [h] at hy
      cases hy
      exact hL.param_regex y q₀ c hq₀ hq

end Reshape

end Trie

end Routing
