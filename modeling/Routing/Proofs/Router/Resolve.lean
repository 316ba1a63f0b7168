import Routing.Proofs.Trie.Matching
import Routing.Proofs.Router.Reachable
import Routing.Router.Lookup
/-!
# Resolving a path in a router

`Router.resolve` normalises the path, answers from the literal routes when one of them answers
the method, and walks the trie otherwise. For every reachable router and every log of insertions
that built its trie, it finds nothing exactly when no route of the log under the method or under
`ALL` reads the normalised path. What it finds is the node of such a route: under the method when
the method's own entry answered, under `ALL` when the node has no entry for the method, with the
values the route reads, percent-decoded when the configuration says so
(`resolve_iff_route_matches`).

The literal routes are a shortcut that never answers wrongly: each records a path with the node
whose root path spells the path after its `/` (`LiteralsSound`), and every insertion keeps that
(`LiteralsSound.withRoute`).
-/

namespace Routing

namespace Router

open Trie

variable {α : Type}

/-! ## Literal routes -/

/-- Every literal route records a path that starts with `/` and a node of the arena whose root
path is the rest of the path, one character a step. -/
def LiteralsSound (r : Router α) : Prop :=
  ∀ path node, (path, node) ∈ r.literalRoutes → ∃ rest, path.toList = '/' :: rest ∧
    node < r.trie.nodes.size ∧ r.trie.rootPath? node = some (rest.map .char)

/-- Literal text read from the tokens onto `acc`: the tokens are text only, and their root path
spells what they add. -/
theorem foldlM_literal (toks : List Token) (acc path : String)
    (h : toks.foldlM (fun path t => match t with
      | .text s => some (path ++ s)
      | _ => none) acc = some path) :
    ∃ rest, path.toList = acc.toList ++ rest ∧ toks.flatMap Token.rootPath = rest.map .char := by
  induction toks generalizing acc with
  | nil =>
    cases h
    exact ⟨[], by simp, rfl⟩
  | cons tok toks ih =>
    rw [List.foldlM_cons] at h
    cases tok with
    | text s =>
      obtain ⟨rest, hrest, hsteps⟩ := ih (acc ++ s) h
      refine ⟨s.toList ++ rest, by simp [hrest], ?_⟩
      simp [Token.rootPath, hsteps]
    | param p => cases h
    | wildcard => cases h

/-- A route with no parameters answers one path: `/` and its texts, which its root path spells. -/
theorem literalPath_spec {route : Route} {path : String} (h : route.literalPath = some path) :
    ∃ rest, path.toList = '/' :: rest ∧ route.rootPath = rest.map .char := by
  obtain ⟨rest, hrest, hsteps⟩ := foldlM_literal route.tokens "/" path h
  exact ⟨rest, by simpa using hrest, hsteps⟩

theorem mem_withRoute {r : Router α} {trie : Trie α} {route : Route} {node : NodeId}
    {entry : String × NodeId} (h : entry ∈ (r.withRoute trie route node).literalRoutes) :
    entry ∈ r.literalRoutes ∨ route.literalPath = some entry.1 ∧ entry.2 = node := by
  unfold withRoute at h
  split at h
  · rename_i path hpath
    simp only [recordLiteral] at h
    split_ifs at h
    · obtain ⟨entry', hmem, rfl⟩ := List.mem_map.1 h
      split_ifs with heq
      · exact .inr ⟨hpath, rfl⟩
      · exact .inl hmem
    · rcases List.mem_append.1 h with h | h
      · exact .inl h
      · rw [List.mem_singleton] at h
        subst h
        exact .inr ⟨hpath, rfl⟩
  · exact .inl h

/-- An insertion keeps the literal routes sound: old nodes keep their root paths, and a route with
no parameters ends at the node its root path names. -/
theorem LiteralsSound.withRoute {r : Router α} {ρ : NodeId → List PathStep} {L : List (Insertion α)}
    (hR : Registry r.trie ρ L) (hlit : LiteralsSound r) {e : Insertion α} {trie : Trie α}
    {node : NodeId} (hins : r.trie.insert e.method e.pattern e.route e.value = .ok (trie, node)) :
    LiteralsSound (r.withRoute trie e.route node) := by
  obtain ⟨ρ', hR', hsize, hold, hnode, hpath⟩ := hR.insert hins
  intro p n hmem
  rw [withRoute_trie]
  rcases mem_withRoute hmem with hmem | ⟨hlp, rfl⟩
  · obtain ⟨rest, hp, hn, hroot⟩ := hlit p n hmem
    refine ⟨rest, hp, Nat.lt_of_lt_of_le hn hsize, ?_⟩
    rw [rootPath?_eq hR'.labelled (Nat.lt_of_lt_of_le hn hsize), hold n hn,
      ← rootPath?_eq hR.labelled hn, hroot]
  · obtain ⟨rest, hp, hroute⟩ := literalPath_spec hlp
    exact ⟨rest, hp, hnode, by rw [rootPath?_eq hR'.labelled hnode, hpath, hroute]⟩

theorem Inserts.literalsSound {r r' : Router α} {es : List (Insertion α)} (h : Inserts r es r') :
    ∀ {L : List (Insertion α)}, r.trie.BuiltBy L → LiteralsSound r → LiteralsSound r' := by
  induction h with
  | nil => exact fun _ hlit => hlit
  | cons _ hins _ ih =>
    intro L hL hlit
    obtain ⟨ρ, hR⟩ := hL.registry
    exact ih (by simpa using Trie.BuiltBy.insert hL hins) (hlit.withRoute hR hins)

theorem Reachable.literalsSound {c : Config} {r : Router α} (h : Reachable c r) :
    LiteralsSound r := by
  obtain ⟨L, hL⟩ := h.inserts
  exact hL.literalsSound (L := []) .empty (fun _ _ hmem => absurd hmem List.not_mem_nil)

/-! ## Soundness and completeness -/

section Resolve

variable {r : Router α} {ρ : NodeId → List PathStep} {L : List (Insertion α)} [Regex.Engine]

/-- What a router finds ends a route of the log under the method, or under `ALL` when the node
has no entry for the method; the route reads the normalised path, with the values found. -/
theorem resolve_sound (hR : Registry r.trie ρ L) (hlit : LiteralsSound r) {method path : String}
    {res : Resolution} (h : r.resolve method path = some res) :
    res.method = method ∧ ∃ e ∈ L, r.trie.rootPath? res.node = some e.route.rootPath ∧
      (res.slot = .exact ∧ e.method = method ∨
        res.slot = .fallback ∧ e.method = allMethods ∧
          ∀ e' ∈ L, e'.route.rootPath = e.route.rootPath → e'.method ≠ method) ∧
      ∃ vs, e.route.pathValues? (r.config.normalize path) = some vs ∧
        res.values = (if r.config.decodeParams then vs.map Text.percentDecode else vs).toArray := by
  cases hres : r.resolveLiteral method (r.config.normalize path) with
  | some res' =>
    -- a literal route answered: its node's root path spells the path
    simp only [resolve, hres, Option.some.injEq] at h
    subst h
    obtain ⟨node, hlook, hans⟩ := Option.bind_eq_some_iff.1 hres
    obtain ⟨slot, hslot, rfl⟩ := Option.map_eq_some_iff.1 hans
    obtain ⟨rest, hp, hn, hroot⟩ := hlit _ node (mem_of_lookup_eq_some hlook)
    have hρ : ρ node = rest.map .char := by
      rw [rootPath?_eq hR.labelled hn] at hroot
      exact Option.some.inj hroot
    have hread : readSteps (ρ node) rest = some ([], []) := by
      simp [hρ, readSteps_chars, List.isPrefixOf_iff_prefix]
    obtain ⟨e, he, hroot', hcase, hvs⟩ := hR.route_reads hp hn hslot hread
    refine ⟨rfl, e, he, hroot', hcase, [], hvs, ?_⟩
    split <;> rfl
  | none =>
    -- the walk answered
    simp only [resolve, hres] at h
    obtain ⟨tr, htr, rfl⟩ := Option.map_eq_some_iff.1 h
    obtain ⟨rest, vs, hp, hn, hread, hvals, hans⟩ := hR.resolve_sound htr
    obtain ⟨e, he, hroot', hcase, hvs⟩ := hR.route_reads hp hn hans hread
    refine ⟨rfl, e, he, hroot', hcase, vs, hvs, ?_⟩
    simp only [hvals]
    split <;> simp

/-- When a route of the log under the method, or under `ALL`, reads the normalised path, the
router finds something: the literal routes, or else the walk. -/
theorem resolve_complete (hR : Registry r.trie ρ L) {method path : String} {e : Insertion α}
    (he : e ∈ L) (hm : e.method = method ∨ e.method = allMethods) {vs : List String}
    (hvs : e.route.pathValues? (r.config.normalize path) = some vs) :
    (r.resolve method path).isSome := by
  obtain ⟨rest, hp, hread⟩ := pathValues?_eq_some.1 hvs
  cases hres : r.resolveLiteral method (r.config.normalize path) with
  | some res => simp [resolve, hres]
  | none => simpa [resolve, hres] using hR.resolve_complete hp he hm hread

end Resolve

variable [Regex.Engine] in
/-- For every router reached by additions from `Router.new c` and every log of the insertions
that built its trie, resolving a method and a path finds nothing exactly when no route of the log
under the method or under `ALL` reads the normalised path. What it finds is the node of such a
route: one under the method when the method's own entry answered, one under `ALL` when the node
has no entry for the method; the route reads the normalised path with the values found,
percent-decoded when the configuration decodes parameters. -/
theorem resolve_iff_route_matches {c : Config} {r : Router α} (h : Reachable c r)
    {L : List (Insertion α)} (hL : r.trie.BuiltBy L) (method path : String) :
    (r.resolve method path = none ↔
      ∀ e ∈ L, e.method = method ∨ e.method = allMethods →
        e.route.pathValues? (c.normalize path) = none) ∧
    ∀ res, r.resolve method path = some res → res.method = method ∧
      ∃ e ∈ L, r.trie.rootPath? res.node = some e.route.rootPath ∧
        (res.slot = .exact ∧ e.method = method ∨
          res.slot = .fallback ∧ e.method = allMethods ∧
            ∀ e' ∈ L, e'.route.rootPath = e.route.rootPath → e'.method ≠ method) ∧
        ∃ vs, e.route.pathValues? (c.normalize path) = some vs ∧
          res.values = (if c.decodeParams then vs.map Text.percentDecode else vs).toArray := by
  obtain ⟨ρ, hR⟩ := hL.registry
  have hlit := h.literalsSound
  rw [← h.config]
  refine ⟨⟨fun hnone e he hm => ?_, fun hno => ?_⟩, fun res hres => resolve_sound hR hlit hres⟩
  · -- a route that reads the path would make the router find something
    cases hvs : e.route.pathValues? (r.config.normalize path) with
    | none => rfl
    | some vs =>
      have hfound := resolve_complete hR he hm hvs
      rw [hnone] at hfound
      cases hfound
  · -- what the router finds names a route that reads the path
    cases hres : r.resolve method path with
    | none => rfl
    | some res =>
      obtain ⟨-, e, he, -, hslot, vs, hvs, -⟩ := resolve_sound hR hlit hres
      have hm : e.method = method ∨ e.method = allMethods := by
        rcases hslot with ⟨-, hm⟩ | ⟨-, hm, -⟩
        · exact .inl hm
        · exact .inr hm
      rw [hno e he hm] at hvs
      cases hvs

/-- Four templates and a refused one. `GET /a/b/d` enters the literal `b/` below the split node
`a/`, finds no `d` there and backtracks to the parameter `:x`; `POST /files/x/y` finds no `POST`
entry at the wildcard and falls back to its `ALL` entry; no route reads `GET /a/b/z`. Each answer
is the one the registration log explains. -/
theorem backtracking_and_fallback_explained :
    let regs : List (String × String × Nat) := [("GET", "/a/b/c", 1), ("GET", "/a/b/e", 2),
      ("GET", "/a/:x/d", 3), ("ALL", "/files/*", 4), ("GET", "/bad/*/x", 5)]
    let r := ((Router.new {} : Router Nat).addAll regs).1
    let L := registrationLog {} regs
    Reachable {} r ∧ r.trie.BuiltBy L ∧
      (∀ request ∈ [("GET", "/a/b/d"), ("POST", "/files/x/y"), ("GET", "/a/b/z")],
        (r.resolve request.1 request.2 = none ↔
          ∀ e ∈ L, e.method = request.1 ∨ e.method = allMethods →
            e.route.pathValues? (({} : Config).normalize request.2) = none) ∧
        ∀ res, r.resolve request.1 request.2 = some res → res.method = request.1 ∧
          ∃ e ∈ L, r.trie.rootPath? res.node = some e.route.rootPath ∧
            (res.slot = .exact ∧ e.method = request.1 ∨
              res.slot = .fallback ∧ e.method = allMethods ∧
                ∀ e' ∈ L, e'.route.rootPath = e.route.rootPath → e'.method ≠ request.1) ∧
            ∃ vs, e.route.pathValues? (({} : Config).normalize request.2) = some vs ∧
              res.values = (if ({} : Config).decodeParams then vs.map Text.percentDecode
                else vs).toArray) ∧
      r.resolve "GET" "/a/b/d" = some ⟨6, "GET", .exact, #["b"]⟩ ∧
      r.resolve "POST" "/files/x/y" = some ⟨8, "POST", .fallback, #["x/y"]⟩ ∧
      r.resolve "GET" "/a/b/z" = none := by
  intro regs r L
  have hr : Reachable {} r := Reachable.new.addAll regs
  have hL : r.trie.BuiltBy L := builtBy_addAll_new {} regs
  exact ⟨hr, hL, fun request _ => resolve_iff_route_matches hr hL request.1 request.2,
    by decide +kernel⟩

end Router

end Routing
