import Routing.Proofs.Router.Resolve
/-!
# Literal routes agree with the walk

A router answers a path from its literal routes before it walks the trie. The shortcut never
changes an answer. A literal route records a node whose root path is the route's path after its
`/`, one character a step (`Router.LiteralsSound`), so the way down to that node is literal text
only, whatever splits happened since. The walk tries a node's literal child before the others,
so it goes straight down that way and stops at the recorded node, having read no values
(`Labelled.search_literal`). The router therefore answers as it would with no literal routes at
all, and a literal lookup's match is the lookup's match (`literalRoutes_agree_with_walk`).
-/

namespace Routing

namespace Trie

variable {α : Type} {t : Trie α} {ρ : NodeId → List PathStep} [Regex.Engine]

omit [Regex.Engine] in
/-- From a path that starts with the text of the literal child keyed by its first character, that
child is tried first, then the parameter children and the wildcard. -/
theorem children_of_literal {n : Node α} {k : Char} {c : NodeId} {rest : List Char}
    (hk : n.literals.lookup k = some c) (hpre : (t.text c).toList.isPrefixOf (k :: rest)) :
    t.children n (k :: rest) = c :: (n.params ++ n.wildcard.toList) := by
  simp [children, hk, hpre]

theorem enter_literal {c : NodeId} {s : String} (hk : t.kind? c = some (.literal s))
    (rest : List Char) (values : Array String) :
    t.enter c rest values = some (rest.drop s.length, values) := by
  have hk' : (t.node? c).map Node.kind = some (.literal s) := hk
  simp [enter, hk']

omit [Regex.Engine] in
/-- A child whose own steps begin a run of characters is a literal child: the run starts with
its text, and the rest of the run is what follows. -/
theorem Labelled.literal_child_of_chars (hL : t.Labelled ρ) {x c : NodeId} {n : Node α}
    (hn : t.node? x = some n) (hc : c ∈ t.childIds x) {cs : List Char} {steps : List PathStep}
    (h : t.ownSteps c ++ steps = cs.map .char) :
    ∃ k s rest, (k, c) ∈ n.literals ∧ t.kind? c = some (.literal s) ∧ s.toList.head? = some k ∧
      cs = s.toList ++ rest ∧ steps = rest.map .char := by
  obtain ⟨b, bs, hown⟩ := List.exists_cons_of_ne_nil (hL.ownSteps_ne_nil hc)
  rcases hL.head_ownSteps hn hc with ⟨k, hkc, -⟩ | ⟨-, q, -, hq⟩ | ⟨-, hw⟩
  · obtain ⟨s, hs, hhead⟩ := hL.literal_slot x n hn k c hkc
    rw [ownSteps_of_kind hs, NodeKind.steps] at h
    obtain ⟨l₁, rest, rfl, h₁, h₂⟩ := List.map_eq_append_iff.1 h.symm
    have hinj : Function.Injective PathStep.char := fun _ _ h => PathStep.char.inj h
    exact ⟨k, s, rest, hkc, hs, hhead, by rw [(List.map_injective_iff.2 hinj) h₁], h₂.symm⟩
  · -- a parameter step is no character
    rw [hown] at h hq
    cases cs with
    | nil => simp at h
    | cons d ds =>
      simp only [List.cons_append, List.map_cons, List.cons.injEq] at h
      simp [h.1] at hq
  · rw [hown] at h hw
    cases cs with
    | nil => simp at h
    | cons d ds =>
      simp only [List.cons_append, List.map_cons, List.cons.injEq] at h
      simp [h.1] at hw

/-- When a node below answers the method and the way down to it is literal text spelling the
whole path left, the search finds that very node, through the slot it answers with, and reads
no values. The induction is on the way down: at each node the literal child on the way is the
first child tried, and the search below it already succeeds. -/
theorem Labelled.search_literal (hL : t.Labelled ρ) (method : String) {x y : NodeId}
    (hxy : t.Descends x y) :
    ∀ fuel rest values slot, t.weight x < fuel → ρ y = ρ x ++ rest.map .char →
      t.answers y method = some slot →
        t.search method fuel x rest values = some { node := y, slot, values } := by
  induction hxy with
  | refl x =>
    intro fuel rest values slot hfuel hpath hans
    have hrest : rest = [] := by simpa using hpath
    subst hrest
    obtain ⟨fuel, rfl⟩ : ∃ f, fuel = f + 1 := ⟨fuel - 1, by omega⟩
    simp [search_succ, hans]
  | @child x c y hc hcy ih =>
    intro fuel rest values slot hfuel hpath hans
    obtain ⟨n, hn⟩ := node?_of_mem_childIds hc
    -- the steps below `x` are the child's own steps, then those below the child
    obtain ⟨steps', hsteps'⟩ := hL.descends_prefix hcy
    have hsplit : t.ownSteps c ++ steps' = rest.map .char := by
      rw [hL.child_path x c hc, List.append_assoc, hpath] at hsteps'
      exact List.append_cancel_left hsteps'
    obtain ⟨k, s, rest', hkc, hs, hhead, rfl, rfl⟩ := hL.literal_child_of_chars hn hc hsplit
    obtain ⟨tl, hst⟩ : ∃ tl, s.toList = k :: tl := by
      cases h : s.toList with
      | nil => simp [h] at hhead
      | cons a tl => simp [h] at hhead; exact ⟨tl, by rw [hhead]⟩
    -- the literal child is the first child tried from here
    have hfirst : t.childrenAt x (s.toList ++ rest') = c :: (n.params ++ n.wildcard.toList) := by
      have hpre : (t.text c).toList.isPrefixOf (s.toList ++ rest') := by
        rw [text_of_literal hs, List.isPrefixOf_iff_prefix]
        exact List.prefix_append _ _
      rw [hst, List.cons_append] at hpre ⊢
      simp only [childrenAt, hn]
      exact children_of_literal (hL.lookup_of_mem hn hkc) hpre
    have hbelow : ρ y = ρ c ++ rest'.map .char := by rw [← hsteps']
    obtain ⟨fuel, rfl⟩ : ∃ f, fuel = f + 1 := ⟨fuel - 1, by omega⟩
    have hw := hL.weight_lt_of_child hc
    have hnonempty : (s.toList ++ rest').isEmpty = false := by simp [hst]
    rw [search_succ, hnonempty, hfirst]
    simp only [Bool.false_eq_true, if_false, List.findSome?_cons, attempt,
      enter_literal hs, ← String.length_toList, List.drop_left]
    rw [ih fuel rest' values slot (by omega) hbelow hans]

end Trie

namespace Router

open Trie

variable {α : Type} {r : Router α} {ρ : NodeId → List PathStep}

section Walk

variable [Regex.Engine]

/-- When a literal route answers a method, the walk finds the recorded node through the same
slot, with no values. -/
theorem LiteralsSound.walk_eq (hL : r.trie.Labelled ρ) (hlit : LiteralsSound r)
    {method path : String} {res : Resolution} (h : r.resolveLiteral method path = some res) :
    r.trie.resolve method path = some { node := res.node, slot := res.slot, values := #[] } := by
  obtain ⟨node, hlook, hans⟩ := Option.bind_eq_some_iff.1 h
  obtain ⟨slot, hslot, rfl⟩ := Option.map_eq_some_iff.1 hans
  obtain ⟨rest, hp, hn, hroot⟩ := hlit _ node (mem_of_lookup_eq_some hlook)
  have hρ : ρ node = ρ rootId ++ rest.map .char := by
    rw [rootPath?_eq hL hn] at hroot
    rw [hL.root_path, List.nil_append]
    exact Option.some.inj hroot
  rw [hL.resolve_search method hp (Nat.lt_succ_self _)]
  exact hL.search_literal method (hL.reach node hn) _ rest #[] slot
    (Nat.lt_succ_of_le (r.trie.weight_le _)) hρ hslot

/-- Resolving gives the same answer with the literal routes as without them. -/
theorem LiteralsSound.resolve_eq (hL : r.trie.Labelled ρ) (hlit : LiteralsSound r)
    (method path : String) :
    r.resolve method path = { r with literalRoutes := [] }.resolve method path := by
  have hnone : ({ r with literalRoutes := [] } : Router α).resolveLiteral method
      (r.config.normalize path) = none := by
    simp [resolveLiteral]
  cases hres : r.resolveLiteral method (r.config.normalize path) with
  | none => simp only [resolve, hres, hnone]
  | some res =>
    -- a literal route answered: the walk finds the same node and slot, and reads nothing
    have hwalk := hlit.walk_eq hL hres
    obtain ⟨node, -, hans⟩ := Option.bind_eq_some_iff.1 hres
    obtain ⟨slot, -, rfl⟩ := Option.map_eq_some_iff.1 hans
    simp only [resolve, hres, hnone, hwalk, Option.map_some]
    split <;> simp

/-- For every router reached by additions: every literal route records a path that starts with
`/` and a node whose root path is the rest of the path, one character a step, so the way down to
it is literal text only; whenever a literal route answers a method for a path, the walk of the
trie finds the same node through the same slot and reads no values; hence resolving gives the
same answer as it would with no literal routes, and whenever the literal lookup finds a match,
the lookup finds that match, with no values. -/
theorem literalRoutes_agree_with_walk {c : Config} (h : Reachable c r) (method path : String) :
    (∀ lit node, (lit, node) ∈ r.literalRoutes → ∃ rest, lit.toList = '/' :: rest ∧
      node < r.trie.nodes.size ∧ r.trie.rootPath? node = some (rest.map .char)) ∧
    (∀ res, r.resolveLiteral method path = some res →
      r.trie.resolve method path = some { node := res.node, slot := res.slot, values := #[] }) ∧
    r.resolve method path = { r with literalRoutes := [] }.resolve method path ∧
    ∀ m, r.lookupLiteral method path = some m → r.lookup method path = some m ∧ m.values = #[] := by
  obtain ⟨L, hL, -⟩ := h.builtBy
  obtain ⟨ρ, hR⟩ := hL.registry
  have hlit := h.literalsSound
  refine ⟨hlit, fun res hres => hlit.walk_eq hR.labelled hres,
    hlit.resolve_eq hR.labelled method path, fun m hm => ?_⟩
  -- the lookup consults the literal routes first
  obtain ⟨res, hres, hmatch⟩ := Option.bind_eq_some_iff.1 hm
  have hvals : res.values = #[] := by
    obtain ⟨node, -, hans⟩ := Option.bind_eq_some_iff.1 hres
    obtain ⟨slot, -, rfl⟩ := Option.map_eq_some_iff.1 hans
    rfl
  refine ⟨by simp [lookup, resolve, hres, hmatch], ?_⟩
  unfold toMatch at hmatch
  split at hmatch
  · cases hmatch
  · cases hmatch
    exact hvals

end Walk

/-- A router with one literal route, reached by adding it, where the literal route and the walk
agree on its path. -/
theorem literalRoute_agrees_with_walk :
    let r := ((Router.new {} : Router Nat).add "GET" "/users/me" 0).1
    Reachable {} r ∧
    ((∀ lit node, (lit, node) ∈ r.literalRoutes → ∃ rest, lit.toList = '/' :: rest ∧
      node < r.trie.nodes.size ∧ r.trie.rootPath? node = some (rest.map .char)) ∧
    (∀ res, r.resolveLiteral "GET" "/users/me" = some res →
      r.trie.resolve "GET" "/users/me" = some { node := res.node, slot := res.slot, values := #[] }) ∧
    r.resolve "GET" "/users/me" = { r with literalRoutes := [] }.resolve "GET" "/users/me" ∧
    ∀ m, r.lookupLiteral "GET" "/users/me" = some m →
      r.lookup "GET" "/users/me" = some m ∧ m.values = #[]) :=
  ⟨.add _ _ _ .new, literalRoutes_agree_with_walk (.add _ _ _ .new) "GET" "/users/me"⟩

end Router

end Routing
