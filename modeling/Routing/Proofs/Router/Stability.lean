import Routing.Proofs.Router.Params
/-!
# Later additions keep what a router answered

Node ids are handed out once and never reused: a split keeps the id of the node it cuts for the
tail. So once a router is reachable, further additions, successful or refused
(`Router.Adds`), keep every node of its arena, with its kind and its root path, and only append
to each of its handler lists. Everything follows from the registry: the trie of the grown router
records the longer log under a labelling that agrees with the old one on the old nodes
(`Inserts.registry`), a node's kind is read off the last step of its root path
(`Labelled.kind_agrees`), and a node's handlers are a filter of the log (`handlers_prefix`).

A resolution that a router gives names a node that answers its method, so the router turns it
into a match with the non-empty handlers of that slot, and every later router still does, with
those handlers first (`resolution_survives_additions`).
-/

namespace Routing

open Trie

variable {α : Type}

/-- Two kinds of node agree but for the text of a literal node and the spans merged into a
parameter node: both literal, both parameter nodes of one regex, or both the wildcard. -/
def NodeKind.Agrees : NodeKind → NodeKind → Prop
  | .literal _, .literal _ => True
  | .param p, .param q => p.signature = q.signature
  | .wildcard, .wildcard => True
  | _, _ => False

/-- Kinds whose steps end alike agree: the last step is a character only for literal text, the
signature for a parameter node, and the wildcard for the wildcard. -/
theorem NodeKind.agrees_of_getLast? {k k' : NodeKind} (h : k.steps.getLast? = k'.steps.getLast?) :
    k.Agrees k' := by
  cases k with
  | literal s =>
    cases k' with
    | literal s' => trivial
    | param q =>
      simp only [steps, List.getLast?_map, List.getLast?_singleton] at h
      cases hs : s.toList.getLast? <;> simp [hs] at h
    | wildcard =>
      simp only [steps, List.getLast?_map, List.getLast?_singleton] at h
      cases hs : s.toList.getLast? <;> simp [hs] at h
  | param p =>
    cases k' with
    | literal s' =>
      simp only [steps, List.getLast?_map, List.getLast?_singleton] at h
      cases hs : s'.toList.getLast? <;> simp [hs] at h
    | param q => simpa [steps, Agrees] using h
    | wildcard => simp [steps] at h
  | wildcard =>
    cases k' with
    | literal s' =>
      simp only [steps, List.getLast?_map, List.getLast?_singleton] at h
      cases hs : s'.toList.getLast? <;> simp [hs] at h
    | param q => simp [steps] at h
    | wildcard => trivial

namespace Trie

variable {t t' : Trie α} {ρ ρ' : NodeId → List PathStep}

/-- A node below the root ends its root path with the last step of its own kind. -/
theorem Labelled.getLast?_path (hL : t.Labelled ρ) {x : NodeId} (hx : x < t.nodes.size)
    (hroot : x ≠ rootId) : ∃ k, t.kind? x = some k ∧ (ρ x).getLast? = k.steps.getLast? := by
  obtain ⟨p, hp⟩ := hL.has_parent x hx hroot
  obtain ⟨n, hn⟩ := node?_of_lt hx
  have hk : t.kind? x = some n.kind := kind?_eq_some.2 ⟨n, hn, rfl⟩
  have hne := hL.ownSteps_ne_nil hp
  rw [ownSteps_of_kind hk] at hne
  refine ⟨n.kind, hk, ?_⟩
  rw [hL.child_path p x hp, ownSteps_of_kind hk, List.getLast?_append_of_ne_nil _ hne]

/-- A node labelled alike in two labelled tries has kinds that agree: the root is the literal `/`
in both, and below it the last step of the path tells the kind. -/
theorem Labelled.kind_agrees (hL : t.Labelled ρ) (hL' : t'.Labelled ρ') {x : NodeId}
    (hx : x < t.nodes.size) (hx' : x < t'.nodes.size) (hpath : ρ' x = ρ x) :
    ∃ k k', t.kind? x = some k ∧ t'.kind? x = some k' ∧ k.Agrees k' := by
  by_cases hroot : x = rootId
  · subst hroot
    exact ⟨_, _, hL.root_kind, hL'.root_kind, trivial⟩
  · obtain ⟨k, hk, hlast⟩ := hL.getLast?_path hx hroot
    obtain ⟨k', hk', hlast'⟩ := hL'.getLast?_path hx' hroot
    exact ⟨k, k', hk, hk', NodeKind.agrees_of_getLast? (hlast.symm.trans (hpath ▸ hlast'))⟩

/-- A node that answers a method holds handlers for the slot that answered. -/
theorem Registry.handlers_ne_nil {L : List (Insertion α)} (hR : Registry t ρ L) {y : NodeId}
    {method : String} {slot : MethodSlot} (h : t.answers y method = some slot) :
    t.handlers y method slot ≠ [] := by
  have hy := lt_size_of_answers h
  obtain ⟨e, he, hpath, hslot⟩ := hR.route_of_answers hy h
  -- the insertion that answers is among those the slot's entry lists
  have hmem : ∀ k, e.method = k → e.handler ∈ t.handlers y k .exact := fun k hk => by
    rw [hR.handlers_exact hy]
    exact List.mem_map_of_mem (List.mem_filter.2 ⟨he, by simp [hk, hpath]⟩)
  rcases hslot with ⟨rfl, hm⟩ | ⟨rfl, hm, -⟩
  · exact List.ne_nil_of_mem (hmem method hm)
  · rw [handlers_fallback]
    exact List.ne_nil_of_mem (hmem allMethods hm)

/-- A trie that records a longer log under a labelling that agrees on the old nodes holds, at
every node and slot, the old handlers first. -/
theorem handlers_prefix {L es : List (Insertion α)} (hR : Registry t ρ L)
    (hR' : Registry t' ρ' (L ++ es)) (hsize : t.nodes.size ≤ t'.nodes.size)
    (hpath : ∀ x, x < t.nodes.size → ρ' x = ρ x) (x : NodeId) (method : String) (slot : MethodSlot) :
    t.handlers x method slot <+: t'.handlers x method slot := by
  -- the `ALL` slot is the entry of `ALL`
  have hexact : ∀ k, t.handlers x k .exact <+: t'.handlers x k .exact := by
    intro k
    rcases Nat.lt_or_ge x t.nodes.size with hx | hx
    · rw [hR.handlers_exact hx, hR'.handlers_exact (Nat.lt_of_lt_of_le hx hsize), hpath x hx,
        List.filter_append, List.map_append]
      exact List.prefix_append _ _
    · have : t.handlers x k .exact = [] := by
        simp [handlers, node?, Array.getElem?_eq_none hx]
      rw [this]
      exact List.nil_prefix
  cases slot with
  | exact => exact hexact method
  | fallback =>
    rw [handlers_fallback, handlers_fallback]
    exact hexact allMethods

end Trie

namespace Router

/-- The routers that further additions, successful or refused, reach from `r`. -/
inductive Adds : Router α → Router α → Prop
  | refl (r : Router α) : Adds r r
  | add {r r' : Router α} (method pattern : String) (value : α) :
      Adds r r' → Adds r (r'.add method pattern value).1

/-- Further additions are a run of insertions. -/
theorem Adds.inserts {r r' : Router α} (h : Adds r r') : ∃ es, Inserts r es r' := by
  induction h with
  | refl => exact ⟨[], .nil _⟩
  | add method pattern value _ ih =>
    obtain ⟨es, hes⟩ := ih
    obtain ⟨es', hes'⟩ := addWithin_inserts method value _ _ pattern
    exact ⟨es ++ es', hes.append hes'⟩

/-- A run of insertions keeps the registry, with the run at the end of the log, under a labelling
that agrees with the old one on the old nodes. -/
theorem Inserts.registry {r r' : Router α} {es : List (Insertion α)} (h : Inserts r es r') :
    ∀ {ρ : NodeId → List PathStep} {L : List (Insertion α)}, Registry r.trie ρ L →
      ∃ ρ', Registry r'.trie ρ' (L ++ es) ∧ r.trie.nodes.size ≤ r'.trie.nodes.size ∧
        ∀ x, x < r.trie.nodes.size → ρ' x = ρ x := by
  induction h with
  | nil r => exact fun hR => ⟨_, by simpa using hR, Nat.le_refl _, fun _ _ => rfl⟩
  | cons _ hins _ ih =>
    intro ρ L hR
    obtain ⟨ρ₁, hR₁, hsize₁, hpath₁, -⟩ := hR.insert hins
    obtain ⟨ρ', hR', hsize', hpath'⟩ := ih (by simpa using hR₁)
    refine ⟨ρ', by simpa using hR', Nat.le_trans hsize₁ (by simpa using hsize'), fun x hx => ?_⟩
    rw [hpath' x (by simpa using Nat.lt_of_lt_of_le hx hsize₁), hpath₁ x hx]

section Resolutions

variable [Regex.Engine]

/-- What a router resolves names the method asked and a node that answers it with the slot. -/
theorem resolve_answers {r : Router α} {ρ : NodeId → List PathStep} {L : List (Insertion α)}
    (hR : Registry r.trie ρ L) {method path : String} {res : Resolution}
    (h : r.resolve method path = some res) :
    res.method = method ∧ r.trie.answers res.node method = some res.slot := by
  cases hlit : r.resolveLiteral method (r.config.normalize path) with
  | some res' =>
    -- a literal route's node answers the method
    simp only [resolve, hlit, Option.some.injEq] at h
    subst h
    obtain ⟨node, -, hans⟩ := Option.bind_eq_some_iff.1 hlit
    obtain ⟨slot, hslot, rfl⟩ := Option.map_eq_some_iff.1 hans
    exact ⟨rfl, hslot⟩
  | none =>
    simp only [resolve, hlit] at h
    obtain ⟨tr, htr, rfl⟩ := Option.map_eq_some_iff.1 h
    obtain ⟨-, -, -, -, -, -, hans⟩ := hR.resolve_sound htr
    exact ⟨rfl, hans⟩

/-- Once a router is reached by additions, further additions, successful or refused, keep every
node of its arena with its kind and root path, and only append to its handler lists. A
resolution the router gives becomes a match with the non-empty handlers its node holds for the
slot that answered, and after any further additions it still becomes a match, with the same
values and those handlers first. -/
theorem resolution_survives_additions {c : Config} {r r' : Router α} (h : Reachable c r)
    (hadds : Adds r r') :
    (∀ x, x < r.trie.nodes.size → x < r'.trie.nodes.size ∧
      r'.trie.rootPath? x = r.trie.rootPath? x ∧
      (∃ k k', r.trie.kind? x = some k ∧ r'.trie.kind? x = some k' ∧ k.Agrees k') ∧
      ∀ method slot, r.trie.handlers x method slot <+: r'.trie.handlers x method slot) ∧
    ∀ method path res, r.resolve method path = some res →
      r.trie.handlers res.node method res.slot ≠ [] ∧
      r.toMatch res = some ⟨r.trie.handlers res.node method res.slot, res.values⟩ ∧
      ∃ hs, r'.toMatch res = some ⟨hs, res.values⟩ ∧ r.trie.handlers res.node method res.slot <+: hs := by
  obtain ⟨L, hL, -⟩ := h.builtBy
  obtain ⟨ρ, hR⟩ := hL.registry
  obtain ⟨es, hes⟩ := hadds.inserts
  obtain ⟨ρ', hR', hsize, hpath⟩ := hes.registry hR
  have hprefix := handlers_prefix hR hR' hsize hpath
  refine ⟨fun x hx => ⟨Nat.lt_of_lt_of_le hx hsize, ?_, ?_, fun method slot => hprefix x method slot⟩,
    fun method path res hres => ?_⟩
  · rw [rootPath?_eq hR'.labelled (Nat.lt_of_lt_of_le hx hsize), rootPath?_eq hR.labelled hx, hpath x hx]
  · exact hR.labelled.kind_agrees hR'.labelled hx (Nat.lt_of_lt_of_le hx hsize) (hpath x hx)
  · obtain ⟨rfl, hans⟩ := resolve_answers hR hres
    have hne := hR.handlers_ne_nil hans
    -- a non-empty list of handlers stays non-empty when it is extended
    have hne' : r'.trie.handlers res.node res.method res.slot ≠ [] := fun hnil =>
      hne (List.eq_nil_of_prefix_nil (hnil ▸ hprefix res.node res.method res.slot))
    refine ⟨hne, ?_, _, ?_, hprefix res.node res.method res.slot⟩
    · unfold toMatch
      split
      · contradiction
      · rfl
    · unfold toMatch
      split
      · contradiction
      · rfl

end Resolutions

/-- A router with one route, grown by a route that splits the first one's node. -/
theorem split_keeps_resolution :
    let r : Router Nat := ((Router.new {}).add "GET" "/ab" 1).1
    let r' := (r.add "POST" "/ac" 2).1
    Reachable {} r ∧ Adds r r' ∧
      ((∀ x, x < r.trie.nodes.size → x < r'.trie.nodes.size ∧
        r'.trie.rootPath? x = r.trie.rootPath? x ∧
        (∃ k k', r.trie.kind? x = some k ∧ r'.trie.kind? x = some k' ∧ k.Agrees k') ∧
        ∀ method slot, r.trie.handlers x method slot <+: r'.trie.handlers x method slot) ∧
      ∀ method path res, r.resolve method path = some res →
        r.trie.handlers res.node method res.slot ≠ [] ∧
        r.toMatch res = some ⟨r.trie.handlers res.node method res.slot, res.values⟩ ∧
        ∃ hs, r'.toMatch res = some ⟨hs, res.values⟩ ∧
          r.trie.handlers res.node method res.slot <+: hs) :=
  ⟨.add _ _ _ .new, .add _ _ _ (.refl _),
    resolution_survives_additions (.add _ _ _ .new) (.add _ _ _ (.refl _))⟩

end Router

end Routing
