import Routing.Proofs.Router.Resolve
/-!
# The values of a match

A match carries one list of values, read by the walk span by span: one value for a parameter
span without regex and for the wildcard, and one value for each capture group of a span's regex.
The values are therefore those the template of every handler of the match reads from the path
(`Route.pathValues?`), whichever handler it is: all handlers of a match end routes with the
node's root path, and the values a route reads depend on its root path only
(`pathValues?_congr`).

Names are looked up in the first handler's parameter index, at the last position of the name
(`ParamIndex.position?_eq_some_iff`). A regex with capture groups of its own gives a span more
values than names, and the later names then read values meant for earlier groups: the router
built from `/a/:x{(b)c}/:y` reads `bc`, `b` and `z` from `/a/bc/z`, and its `y` is `b`
(`capture_group_shifts_later_values`).

How many values there are depends on the template only, under an engine that answers one entry
per group of a pattern (`Regex.Engine.CountsGroups`, which the backtracking engine does): a route
gives every path it reads `Route.valueCount` values (`Route.length_pathValues?`), and so does
every match whose handler it registered (`Router.lookup_values_size`). The other results hold for
every engine.
-/

namespace Routing

variable {α : Type}

/-! ## The last position of a name -/

namespace ParamIndex

theorem position?_append_singleton (names : List String) (a name : String) :
    ({ names := names ++ [a] } : ParamIndex).position? name =
      if a = name then some names.length else ({ names := names } : ParamIndex).position? name := by
  unfold position?
  rw [List.zipIdx_append, List.filter_append, List.getLast?_append]
  by_cases h : a = name <;> simp [h]

/-- A name's position is the last index that holds it. -/
theorem position?_eq_some_iff {names : List String} {name : String} {i : Nat} :
    ({ names } : ParamIndex).position? name = some i ↔
      names[i]? = some name ∧ ∀ j, i < j → names[j]? ≠ some name := by
  induction names using List.reverseRecOn generalizing i with
  | nil => simp [position?]
  | append_singleton l a ih =>
    rw [position?_append_singleton]
    by_cases ha : a = name
    · -- the name ends the list: its last index is the end
      subst ha
      simp only [if_true, Option.some.injEq]
      constructor
      · rintro rfl
        refine ⟨by simp, fun j hj => ?_⟩
        rw [List.getElem?_eq_none (by simp; omega)]
        simp
      · rintro ⟨hi, hj⟩
        have hlt : i < l.length + 1 := by
          have := (List.getElem?_eq_some_iff.1 hi).1
          simpa using this
        by_contra hne
        exact hj l.length (by omega) (by simp)
    · rw [if_neg ha, ih]
      -- below the end the two lists agree, and the end holds another name
      have hsame : ∀ j : Nat, (l ++ [a])[j]? = some name ↔ l[j]? = some name := by
        intro j
        rcases Nat.lt_or_ge j l.length with hj | hj
        · rw [List.getElem?_append_left hj]
        · rw [List.getElem?_append_right hj, List.getElem?_eq_none hj]
          rcases Nat.lt_or_ge (j - l.length) 1 with h1 | h1
          · simp [show j - l.length = 0 by omega, ha]
          · simp [List.getElem?_eq_none (show [a].length ≤ j - l.length by simpa using h1)]
      simp only [hsame, ne_eq]

end ParamIndex

variable [Regex.Engine] in
/-- The values a route reads depend on its root path only. -/
theorem pathValues?_congr {r₁ r₂ : Route} (h : r₁.rootPath = r₂.rootPath) (path : String) :
    r₁.pathValues? path = r₂.pathValues? path := by
  apply Option.ext
  intro vs
  rw [pathValues?_eq_some, pathValues?_eq_some, h]

/-! ## The handlers of a node -/

namespace Trie

variable {t : Trie α} {ρ : NodeId → List PathStep} {L : List (Insertion α)}

/-- The `ALL` slot holds the handlers of the method `ALL`. -/
theorem handlers_fallback (t : Trie α) (x : NodeId) (k : String) :
    t.handlers x k .fallback = t.handlers x allMethods .exact := by
  simp [handlers_eq_getD, HandlerTable.handlersAt]

theorem lt_size_of_mem_handlers {x : NodeId} {k : String} {slot : MethodSlot} {hd : Handler α}
    (h : hd ∈ t.handlers x k slot) : x < t.nodes.size := by
  rcases Nat.lt_or_ge x t.nodes.size with hx | hx
  · exact hx
  · simp [handlers, node?, Array.getElem?_eq_none hx] at h

/-- Every handler a node holds for a method and slot is registered by an insertion of the log
whose route has the node's path: under the method for its own entry, under `ALL` for the `ALL`
slot. -/
theorem Registry.mem_handlers (hR : Registry t ρ L) {x : NodeId} {k : String} {slot : MethodSlot}
    {hd : Handler α} (h : hd ∈ t.handlers x k slot) :
    ∃ e ∈ L, e.handler = hd ∧ e.route.rootPath = ρ x ∧
      (slot = .exact ∧ e.method = k ∨ slot = .fallback ∧ e.method = allMethods) := by
  have hx := lt_size_of_mem_handlers h
  cases slot with
  | exact =>
    rw [hR.handlers_exact hx] at h
    obtain ⟨e, he, rfl⟩ := List.mem_map.1 h
    obtain ⟨he, hmatch⟩ := List.mem_filter.1 he
    simp only [Bool.and_eq_true, beq_iff_eq] at hmatch
    exact ⟨e, he, rfl, hmatch.2, .inl ⟨rfl, hmatch.1⟩⟩
  | fallback =>
    rw [handlers_fallback, hR.handlers_exact hx] at h
    obtain ⟨e, he, rfl⟩ := List.mem_map.1 h
    obtain ⟨he, hmatch⟩ := List.mem_filter.1 he
    simp only [Bool.and_eq_true, beq_iff_eq] at hmatch
    exact ⟨e, he, rfl, hmatch.2, .inr ⟨rfl, hmatch.1⟩⟩

end Trie

/-! ## Looking names up -/

namespace Match

variable {m : Match α} {hd : Handler α} {name : String}

end Match

/-! ## How many values a route reads -/

/-- An engine answers every match with one entry per group of the pattern. -/
def Regex.Engine.CountsGroups (E : Regex.Engine) : Prop :=
  ∀ p s groups, E.captures p s = .ok (some groups) → groups.length = p.groups

/-- The backtracking engine answers one entry per group: it lists groups `1..n` of the match. -/
theorem Regex.Engine.countsGroups_backtracking : Regex.Engine.backtracking.CountsGroups := by
  intro p s groups h
  have hcap : p.captures s = some groups := Except.ok.inj h
  unfold Regex.Pattern.captures at hcap
  obtain ⟨spans, -, rfl⟩ := Option.map_eq_some_iff.1 hcap
  simp

/-- The number of values a span gives a segment it reads: one without a regex, and the number of
groups of its regex otherwise (none when the regex text is no regex, which reads nothing). -/
def ParamSpan.valueCount (p : ParamSpan) : Nat :=
  match p.regex with
  | none => 1
  | some source =>
    match Regex.Pattern.parse source with
    | .ok pat => pat.groups
    | .error _ => 0

/-- The number of values a token gives: none for literal text, one for the wildcard. -/
def Token.valueCount : Token → Nat
  | .text _ => 0
  | .param p => p.valueCount
  | .wildcard => 1

/-- The number of values a route gives every path it reads. -/
def Route.valueCount (r : Route) : Nat := r.tokens.foldr (·.valueCount + ·) 0

section Counting

variable [E : Regex.Engine]

theorem Regex.Pattern.length_groupValues? (hE : E.CountsGroups) {p : Regex.Pattern} {s : String}
    {vs : List String} (h : p.groupValues? s = some vs) : vs.length = p.groups := by
  unfold Regex.Pattern.groupValues? at h
  split at h
  · rename_i groups hcap
    cases h
    rw [List.length_map, hE p s groups hcap]
  all_goals cases h

theorem ParamSpan.length_valuesOf? (hE : E.CountsGroups) {p : ParamSpan} {s : String}
    {vs : List String} (h : p.valuesOf? s = some vs) : vs.length = p.valueCount := by
  unfold ParamSpan.valuesOf? at h
  cases hr : p.regex with
  | none =>
    simp only [segmentValues?, hr, Option.some.injEq] at h
    simp [ParamSpan.valueCount, hr, ← h]
  | some source =>
    simp only [segmentValues?, hr] at h
    cases hp : Regex.Pattern.parse source with
    | ok pat =>
      rw [hp] at h
      simpa [ParamSpan.valueCount, hr, hp] using Regex.Pattern.length_groupValues? hE h
    | error _ => simp [hp] at h

/-- A route's tokens give as many values as they count, whatever path they read. The induction
follows `tokensRead?`, token by token. -/
theorem length_tokensRead? (hE : E.CountsGroups) :
    ∀ (toks : List Token) (cs : List Char) (vs : List String), tokensRead? toks cs = some vs →
      vs.length = toks.foldr (·.valueCount + ·) 0
  | [], [], vs, h => by
    cases h
    rfl
  | [], _ :: _, _, h => by cases h
  | .text s :: ts, cs, vs, h => by
    rw [tokensRead?] at h
    split_ifs at h
    simpa [Token.valueCount] using length_tokensRead? hE ts _ vs h
  | .param p :: ts, cs, vs, h => by
    rw [tokensRead?] at h
    split at h
    · rename_i ws hws
      obtain ⟨us, hus, rfl⟩ := Option.map_eq_some_iff.1 h
      simp [Token.valueCount, ParamSpan.length_valuesOf? hE hws, length_tokensRead? hE ts _ us hus]
    · cases h
  | .wildcard :: ts, cs, vs, h => by
    rw [tokensRead?] at h
    obtain ⟨us, hus, rfl⟩ := Option.map_eq_some_iff.1 h
    simp [Token.valueCount, length_tokensRead? hE ts _ us hus, Nat.add_comm]

/-- Every path a route reads gives it `valueCount` values. -/
theorem Route.length_pathValues? (hE : E.CountsGroups) {r : Route} {path : String}
    {vs : List String} (h : r.pathValues? path = some vs) : vs.length = r.valueCount := by
  unfold Route.pathValues? at h
  split at h
  · exact length_tokensRead? hE r.tokens _ vs h
  · cases h

end Counting

example : (Route.ofTemplate "/a/:x\x7b(b)c\x7d/:y").toOption.map Route.valueCount = some 3 := by
  decide +kernel

/-! ## The values of a lookup -/

namespace Router

open Trie

variable {r : Router α} {ρ : NodeId → List PathStep} {L : List (Insertion α)}

/-- A match holds the handlers its node has for the resolution's method and slot, never none,
with the resolution's values. -/
theorem toMatch_spec {res : Resolution} {m : Match α} (h : r.toMatch res = some m) :
    m.handlers = r.trie.handlers res.node res.method res.slot ∧ m.handlers ≠ [] ∧
      m.values = res.values := by
  unfold toMatch at h
  cases hhs : r.trie.handlers res.node res.method res.slot with
  | nil => simp [hhs] at h
  | cons hd tl =>
    simp only [hhs] at h
    cases h
    exact ⟨rfl, List.cons_ne_nil _ _, rfl⟩

section Lookup

variable [E : Regex.Engine]

/-- Every handler of a match is registered under the method, or under `ALL`, by an insertion
whose route reads the normalised path with the match's values. -/
theorem lookup_handlers_read (hR : Registry r.trie ρ L) (hlit : LiteralsSound r)
    {method path : String} {m : Match α} (hm : r.lookup method path = some m) :
    ∀ hd ∈ m.handlers, ∃ e ∈ L, e.handler = hd ∧ (e.method = method ∨ e.method = allMethods) ∧
      ∃ vs, e.route.pathValues? (r.config.normalize path) = some vs ∧
        m.values = (if r.config.decodeParams then vs.map Text.percentDecode else vs).toArray := by
  obtain ⟨res, hres, hmatch⟩ := Option.bind_eq_some_iff.1 hm
  obtain ⟨hmethod, e, -, hroot, -, vs, hvs, hvalues⟩ := resolve_sound hR hlit hres
  obtain ⟨hhandlers, -, hvals⟩ := toMatch_spec hmatch
  intro hd hhd
  rw [hhandlers, hmethod] at hhd
  obtain ⟨e', he', rfl, hpath, hcase⟩ := hR.mem_handlers hhd
  -- the route found and the handler's route have the node's root path, so they read alike
  have hρ : e.route.rootPath = ρ res.node := by
    rw [rootPath?_eq hR.labelled (lt_size_of_mem_handlers hhd)] at hroot
    exact (Option.some.inj hroot).symm
  refine ⟨e', he', rfl, ?_, vs, by rw [pathValues?_congr (hpath.trans hρ.symm)]; exact hvs,
    hvals.trans hvalues⟩
  rcases hcase with ⟨-, hk⟩ | ⟨-, hk⟩
  · exact .inl hk
  · exact .inr hk

/-- Under an engine that answers one entry per group, how many values a match carries is fixed by
the templates alone: every handler of a match was registered under a template whose route gives
every path it reads `valueCount` values, as many as the match carries. -/
theorem lookup_values_size (hE : E.CountsGroups) {c : Config} (h : Reachable c r) :
    ∃ L, r.trie.BuiltBy L ∧ (∀ e ∈ L, Route.ofTemplate e.pattern = .ok e.route) ∧
      ∀ method path m, r.lookup method path = some m →
        ∀ hd ∈ m.handlers, ∃ e ∈ L, e.handler = hd ∧ m.values.size = e.route.valueCount := by
  obtain ⟨L, hbuilt, htemplates⟩ := h.builtBy_templates
  obtain ⟨ρ, hR⟩ := hbuilt.registry
  refine ⟨L, hbuilt, htemplates, fun method path m hm hd hhd => ?_⟩
  obtain ⟨e, he, rfl, -, vs, hvs, hvalues⟩ := lookup_handlers_read hR h.literalsSound hm hd hhd
  have hsize : m.values.size = vs.length := by
    rw [hvalues]
    split <;> simp
  exact ⟨e, he, rfl, hsize.trans (Route.length_pathValues? hE hvs)⟩

end Lookup

end Router

end Routing
