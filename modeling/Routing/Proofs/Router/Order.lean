import Mathlib.Algebra.Order.BigOperators.Group.List
import Mathlib.Algebra.Order.Group.Nat
import Routing.Proofs.Trie.Siblings
import Routing.Proofs.Router.Params
/-!
# The order of registration

What an addition inserts, and whether it succeeds, is a matter of the configuration, the method,
the template and the value alone (`addWithin_insertions`): the router it is made to plays no part.
Registering a list of templates in any order therefore inserts the concatenations of what each
registration inserts (`Router.registrationLog`), and these logs are permutations of each other.

Two tries built from logs that are permutations of each other resolve every path alike, read by
root path, when the parameter spans that become siblings are comparable: each resolves as the
unfolded search of its log (`Registry.resolve_unfolded`), which reads the log only through which
paths lead to a route, which routes end where, and the order of the signatures below each path,
and that order is the same in both (`paramOrder_eq_of_perm`). A node's handlers are those of the
insertions of its root path under the method, so they are the same handlers in two orders
(`Registry.handlers_perm`). Literal routes and percent-decoding change neither
(`resolve_independent_of_registration_order`).
-/

namespace Routing

variable {α : Type}

namespace Trie

variable {t t₁ t₂ : Trie α} {ρ ρ₁ ρ₂ : NodeId → List PathStep} {L L₁ L₂ : List (Insertion α)}
  [Regex.Engine]

/-- What the walk finds, read by root path, is the node's path under any registry. -/
theorem Registry.resolve_rootPath (hR : Registry t ρ L) (method path : String) :
    (t.resolve method path).map (fun tr => (t.rootPath? tr.node, tr.slot, tr.values)) =
      ((t.resolve method path).map fun tr => (ρ tr.node, tr.slot, tr.values)).map
        fun x => (some x.1, x.2) := by
  cases h : t.resolve method path with
  | none => rfl
  | some tr =>
    obtain ⟨-, -, -, hlt, -⟩ := hR.resolve_sound h
    simp [rootPath?_eq hR.labelled hlt]

theorem resolve_eq_none {method path : String} (h : ∀ rest, path.toList ≠ '/' :: rest) :
    t.resolve method path = none := by
  unfold resolve
  split
  · rename_i rest hpath
    exact absurd hpath (h rest)
  · rfl

/-- Two tries built from the same insertions in two orders resolve every path alike, read by
root path, when the spans that become siblings are comparable. -/
theorem resolve_eq_of_perm (hb₁ : t₁.BuiltBy L₁) (hb₂ : t₂.BuiltBy L₂) (hperm : L₁.Perm L₂)
    (htemplates : ∀ e ∈ L₁, Route.ofTemplate e.pattern = .ok e.route) (hcmp : Comparable L₁)
    (method path : String) :
    (t₁.resolve method path).map (fun tr => (t₁.rootPath? tr.node, tr.slot, tr.values)) =
      (t₂.resolve method path).map (fun tr => (t₂.rootPath? tr.node, tr.slot, tr.values)) := by
  obtain ⟨ρ₁, hR₁⟩ := hb₁.registry
  obtain ⟨ρ₂, hR₂⟩ := hb₂.registry
  by_cases hslash : ∃ rest, path.toList = '/' :: rest
  · obtain ⟨rest, hpath⟩ := hslash
    -- one bound on the lengths of the routes' root paths serves both logs
    have hK₁ : ∀ e ∈ L₁, e.route.rootPath.length ≤ (L₁.map fun e => e.route.rootPath.length).sum :=
      fun e he => List.le_sum_of_mem (List.mem_map_of_mem he)
    have hK₂ : ∀ e ∈ L₂, e.route.rootPath.length ≤ (L₁.map fun e => e.route.rootPath.length).sum :=
      fun e he => hK₁ e (hperm.mem_iff.2 he)
    have hnext : ∀ π rest, Unfolded.next L₁ t₁.paramOrder π rest =
        Unfolded.next L₂ t₂.paramOrder π rest := by
      intro π rest
      rw [Unfolded.next, Unfolded.next, Unfolded.leadsTo_perm hperm,
        paramOrder_eq_of_perm hb₁ hb₂ hperm htemplates hcmp π]
    rw [hR₁.resolve_rootPath, hR₂.resolve_rootPath, hR₁.resolve_unfolded method hpath hK₁,
      hR₂.resolve_unfolded method hpath hK₂,
      Unfolded.search_congr hnext (fun π => by rw [Unfolded.answers_perm hperm])]
  · -- a path that does not start with `/` is not walked
    have hnone : ∀ rest, path.toList ≠ '/' :: rest := fun rest h => hslash ⟨rest, h⟩
    simp only [resolve_eq_none hnone, Option.map_none]

omit [Regex.Engine] in
/-- Two registries of the same insertions in two orders hold, at nodes of one root path, the same
handlers under every method and slot, in the orders of their logs. -/
theorem Registry.handlers_perm (hR₁ : Registry t₁ ρ₁ L₁) (hR₂ : Registry t₂ ρ₂ L₂)
    (hperm : L₁.Perm L₂) {x₁ x₂ : NodeId} (hx₁ : x₁ < t₁.nodes.size) (hx₂ : x₂ < t₂.nodes.size)
    (hρ : ρ₁ x₁ = ρ₂ x₂) (k : String) (slot : MethodSlot) :
    (t₁.handlers x₁ k slot).Perm (t₂.handlers x₂ k slot) := by
  have hexact : ∀ k, (t₁.handlers x₁ k .exact).Perm (t₂.handlers x₂ k .exact) := by
    intro k
    rw [hR₁.handlers_exact hx₁, hR₂.handlers_exact hx₂, hρ]
    exact (hperm.filter _).map _
  cases slot with
  | exact => exact hexact k
  | fallback =>
    rw [handlers_fallback, handlers_fallback]
    exact hexact allMethods

/-- Two tries built from the same insertions in two orders find, for a method and a path, nodes
that hold the same handlers for the method and the slot found, when the spans that become
siblings are comparable. -/
theorem handlers_perm_of_resolve (hb₁ : t₁.BuiltBy L₁) (hb₂ : t₂.BuiltBy L₂) (hperm : L₁.Perm L₂)
    (htemplates : ∀ e ∈ L₁, Route.ofTemplate e.pattern = .ok e.route) (hcmp : Comparable L₁)
    {method path : String} {tr₁ tr₂ : Traversal} (h₁ : t₁.resolve method path = some tr₁)
    (h₂ : t₂.resolve method path = some tr₂) :
    (t₁.handlers tr₁.node method tr₁.slot).Perm (t₂.handlers tr₂.node method tr₂.slot) := by
  obtain ⟨ρ₁, hR₁⟩ := hb₁.registry
  obtain ⟨ρ₂, hR₂⟩ := hb₂.registry
  have heq := resolve_eq_of_perm hb₁ hb₂ hperm htemplates hcmp method path
  rw [h₁, h₂] at heq
  simp only [Option.map_some, Option.some.injEq, Prod.mk.injEq] at heq
  obtain ⟨hroot, hslot, -⟩ := heq
  obtain ⟨-, -, -, hlt₁, -⟩ := hR₁.resolve_sound h₁
  obtain ⟨-, -, -, hlt₂, -⟩ := hR₂.resolve_sound h₂
  -- one root path: both nodes hold the insertions of that path
  have hρ : ρ₁ tr₁.node = ρ₂ tr₂.node := by
    rw [rootPath?_eq hR₁.labelled hlt₁, rootPath?_eq hR₂.labelled hlt₂] at hroot
    exact Option.some.inj hroot
  rw [hslot]
  exact hR₁.handlers_perm hR₂ hperm hlt₁ hlt₂ hρ method tr₂.slot

end Trie

namespace Router

theorem registrationLog_perm {c : Config} {regs regs' : List (String × String × α)}
    (h : regs.Perm regs') : (registrationLog c regs).Perm (registrationLog c regs') :=
  h.flatMap_right _

/-- The router that registering a list leaves of `Router.new c`: its configuration is `c`, its
trie is built by the list's log, every route of which is read from its template, and its literal
routes are sound. -/
theorem addAll_new (c : Config) (regs : List (String × String × α)) :
    ((Router.new c).addAll regs).1.config = c ∧
      ((Router.new c).addAll regs).1.trie.BuiltBy (registrationLog c regs) ∧
      (∀ e ∈ registrationLog c regs, Route.ofTemplate e.pattern = .ok e.route) ∧
      LiteralsSound ((Router.new c).addAll regs).1 := by
  have hins := (addAll_inserts regs (Router.new c)).1
  have hnew : (Router.new c : Router α).config = c := rfl
  rw [hnew] at hins
  exact ⟨hins.config, builtBy_addAll_new c regs, hins.ofTemplate,
    hins.literalsSound .empty fun _ _ h => absurd h List.not_mem_nil⟩

section Resolve

variable {r : Router α} {ρ : NodeId → List PathStep} [Regex.Engine]

/-- A router whose literal routes are sound resolves a path as its trie resolves the normalised
path, read by root path, the values decoded when the configuration says so. -/
theorem LiteralsSound.resolve_rootPath (hL : r.trie.Labelled ρ) (hlit : LiteralsSound r)
    (method path : String) :
    (r.resolve method path).map (fun res => (r.trie.rootPath? res.node, res.slot, res.values)) =
      ((r.trie.resolve method (r.config.normalize path)).map
          fun tr => (r.trie.rootPath? tr.node, tr.slot, tr.values)).map
        fun x => (x.1, x.2.1, if r.config.decodeParams then x.2.2.map Text.percentDecode else x.2.2) := by
  rw [hlit.resolve_eq hL]
  cases h : r.trie.resolve method (r.config.normalize path) <;> simp [resolve, resolveLiteral, h]

/-- What a router with sound literal routes resolves is what its trie finds for the normalised
path, under the method asked. -/
theorem LiteralsSound.mem_resolve (hL : r.trie.Labelled ρ) (hlit : LiteralsSound r)
    {method path : String} {res : Resolution} (h : res ∈ r.resolve method path) :
    ∃ tr ∈ r.trie.resolve method (r.config.normalize path),
      res.node = tr.node ∧ res.method = method ∧ res.slot = tr.slot := by
  rw [hlit.resolve_eq hL] at h
  simp only [resolve, resolveLiteral, List.lookup_nil, Option.bind_none, Option.mem_def,
    Option.map_eq_some_iff] at h
  obtain ⟨tr, htr, rfl⟩ := h
  exact ⟨tr, htr, rfl, rfl, rfl⟩

end Resolve

variable [Regex.Engine] in
/-- Registering the same templates in two orders gives routers that answer every method and path
alike, when the parameter spans that become siblings share a regex or are ordered by priority.
Each addition succeeds or is refused in both, whatever the order. Either both routers miss, or
both resolve at nodes of the same root path, through the same slot, with the same values, and the
two nodes hold the same handlers for the method and slot, each list in the order of its own
registrations. -/
theorem resolve_independent_of_registration_order {c : Config}
    {regs regs' : List (String × String × α)} (hperm : regs.Perm regs')
    (hcmp : Trie.Comparable (registrationLog c regs)) (method path : String) :
    let r := ((Router.new c).addAll regs).1
    let r' := ((Router.new c).addAll regs').1
    ((Router.new c).addAll regs').2 = ((Router.new c).addAll regs).2 ∧
      (r.resolve method path).map (fun res => (r.trie.rootPath? res.node, res.slot, res.values)) =
        (r'.resolve method path).map (fun res => (r'.trie.rootPath? res.node, res.slot, res.values)) ∧
      ∀ res ∈ r.resolve method path, ∀ res' ∈ r'.resolve method path,
        (r.trie.handlers res.node res.method res.slot).Perm
          (r'.trie.handlers res'.node res'.method res'.slot) := by
  intro r r'
  obtain ⟨hconfig, hb, htemplates, hlit⟩ := addAll_new c regs
  obtain ⟨hconfig', hb', -, hlit'⟩ := addAll_new c regs'
  have hlog : (registrationLog c regs).Perm (registrationLog c regs') := registrationLog_perm hperm
  obtain ⟨ρ, hR⟩ := hb.registry
  obtain ⟨ρ', hR'⟩ := hb'.registry
  refine ⟨?_, ?_, ?_⟩
  · -- each addition succeeds or not whatever the order
    rw [(addAll_inserts regs (Router.new c)).2, (addAll_inserts regs' (Router.new c)).2,
      hperm.all_eq]
  · rw [hlit.resolve_rootPath hR.labelled, hlit'.resolve_rootPath hR'.labelled, hconfig, hconfig',
      Trie.resolve_eq_of_perm hb hb' hlog htemplates hcmp]
  · intro res hres res' hres'
    obtain ⟨tr, htr, hnode, hm, hs⟩ := hlit.mem_resolve hR.labelled hres
    obtain ⟨tr', htr', hnode', hm', hs'⟩ := hlit'.mem_resolve hR'.labelled hres'
    rw [hconfig] at htr
    rw [hconfig'] at htr'
    rw [hnode, hnode', hm, hm', hs, hs']
    exact Trie.handlers_perm_of_resolve hb hb' hlog htemplates hcmp htr htr'

/-- A plain and a constrained parameter below `/a/`, and the literal `/a/b`, registered in two
orders: the two parameters are ordered by priority, so both routers answer `/a/7` alike. -/
theorem parameters_and_literal_in_either_order :
    let regs : List (String × String × Nat) :=
      [("GET", "/a/:y", 1), ("GET", "/a/:x\x7b[0-9]+\x7d", 2), ("GET", "/a/b", 3)]
    let r := ((Router.new {} : Router Nat).addAll regs).1
    let r' := ((Router.new {} : Router Nat).addAll regs.reverse).1
    regs.Perm regs.reverse ∧ Trie.Comparable (registrationLog {} regs) ∧
      ((Router.new {} : Router Nat).addAll regs.reverse).2 =
          ((Router.new {} : Router Nat).addAll regs).2 ∧
        (r.resolve "GET" "/a/7").map (fun res => (r.trie.rootPath? res.node, res.slot, res.values)) =
          (r'.resolve "GET" "/a/7").map
            (fun res => (r'.trie.rootPath? res.node, res.slot, res.values)) ∧
        ∀ res ∈ r.resolve "GET" "/a/7", ∀ res' ∈ r'.resolve "GET" "/a/7",
          (r.trie.handlers res.node res.method res.slot).Perm
            (r'.trie.handlers res'.node res'.method res'.slot) :=
  ⟨(List.reverse_perm _).symm, Trie.comparable_of_allComparable (by decide +kernel),
    resolve_independent_of_registration_order (List.reverse_perm _).symm
      (Trie.comparable_of_allComparable (by decide +kernel)) "GET" "/a/7"⟩

end Router

end Routing
