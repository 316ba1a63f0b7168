import Routing.Proofs.Trie.Descent
import Routing.Proofs.Trie.RootPaths
/-!
# The trie as a registry of its insertions

A trie built by insertions is a registry of them, read through root paths. Every route ends at
the node labelled by its root path, so two routes share a node exactly when their root paths are
equal; a node's handler table holds, method by method and in insertion order, the handlers of
the insertions whose route has the node's root path; and a node that no route ends at has no
table.

`Trie.BuiltBy t L` says that `t` is what the successful insertions `L`, in order, leave of the
empty trie. `Registry t ρ L` is the invariant: `ρ` labels `t`, every route of `L` ends at a node,
every table is the table of its node's insertions, and every node lies on the way to a route.
An insertion keeps it (`Registry.insert`), so every built trie satisfies it
(`BuiltBy.registry`), and the registry reads back through `rootPath?`
(`handlers_eq_registered`).
-/

namespace Routing

variable {α : Type}

/-- One successful insertion: the method, the template, its route and the handler's value. -/
structure Insertion (α : Type) where
  method : String
  pattern : String
  route : Route
  value : α

/-- The handler an insertion registers: its value, with the parameter names of its route. -/
def Insertion.handler (e : Insertion α) : Handler α :=
  { value := e.value, params := { names := e.route.params } }

namespace HandlerTable

/-- The table of a log of insertions: each handler pushed under its method, in order. -/
def ofLog (L : List (Insertion α)) : HandlerTable α :=
  L.foldl (fun T e => T.push e.method e.handler) .empty

theorem ofLog_append_singleton (L : List (Insertion α)) (e : Insertion α) :
    ofLog (L ++ [e]) = (ofLog L).push e.method e.handler := by
  simp [ofLog, List.foldl_append]

/-- A method's entry in the table of a log: the handlers of the method's insertions, in order,
and no entry when the method has none. -/
theorem get?_ofLog (L : List (Insertion α)) (k : String) :
    (ofLog L).get? k =
      if L.any (·.method == k) then some ((L.filter (·.method == k)).map Insertion.handler) else none := by
  induction L using List.reverseRecOn with
  | nil => rfl
  | append_singleton L e ih =>
    rw [ofLog_append_singleton]
    by_cases hk : k = e.method
    · subst hk
      rw [get?_push_self, ih]
      split_ifs <;> simp_all
    · rw [get?_push_of_ne _ _ hk, ih]
      have he : (e.method == k) = false := beq_eq_false_iff_ne.2 (Ne.symm hk)
      simp [List.any_append, List.filter_append, he]

theorem getD_get?_ofLog (L : List (Insertion α)) (k : String) :
    ((ofLog L).get? k).getD [] = (L.filter (·.method == k)).map Insertion.handler := by
  rw [get?_ofLog]
  split_ifs with h
  · rfl
  · rw [List.filter_eq_nil_iff.2 fun e he => by simpa using List.any_eq_false.1 (Bool.eq_false_iff.2 h) e he]
    rfl

end HandlerTable

namespace Trie

/-- `t` is what the successful insertions `L`, in order, leave of the empty trie. A refused
insertion leaves the trie as it was and is not in the log. -/
inductive BuiltBy : Trie α → List (Insertion α) → Prop
  | empty : BuiltBy .empty []
  | insert {t t' : Trie α} {L : List (Insertion α)} {e : Insertion α} {last : NodeId} :
      BuiltBy t L → t.insert e.method e.pattern e.route e.value = .ok (t', last) → BuiltBy t' (L ++ [e])

/-- The trie a log builds from the empty trie, when every insertion of it succeeds. -/
def build (L : List (Insertion α)) : Option (Trie α) :=
  L.foldlM (fun t e => (t.insert e.method e.pattern e.route e.value).toOption.map Prod.fst) .empty

theorem builtBy_foldlM : ∀ {L M : List (Insertion α)} {t t' : Trie α}, t.BuiltBy M →
    L.foldlM (fun t e => (t.insert e.method e.pattern e.route e.value).toOption.map Prod.fst) t =
      some t' → t'.BuiltBy (M ++ L)
  | [], _, _, _, hb, h => by
    cases h
    simpa using hb
  | e :: L, M, t, t', hb, h => by
    rw [List.foldlM_cons] at h
    cases hins : t.insert e.method e.pattern e.route e.value with
    | error _ => simp [hins, Except.toOption] at h
    | ok res =>
      obtain ⟨t₁, last⟩ := res
      simp only [hins, Except.toOption, Option.map_some] at h
      simpa using builtBy_foldlM (hb.insert hins) h

/-- A log whose insertions all succeed builds the trie `build` answers; so `BuiltBy` can be
checked by running the log. -/
theorem builtBy_build {L : List (Insertion α)} (h : (build L).isSome) :
    ((build L).getD .empty).BuiltBy L := by
  obtain ⟨t, ht⟩ := Option.isSome_iff_exists.1 h
  rw [ht]
  simpa using builtBy_foldlM .empty ht

/-- The table a node of path `path` holds for the log `L`: the table of the insertions whose
route has that path, and none when there are none. -/
def registered (L : List (Insertion α)) (path : List PathStep) : Option (HandlerTable α) :=
  if L.any (·.route.rootPath == path) then
    some (HandlerTable.ofLog (L.filter (·.route.rootPath == path)))
  else none

/-- The log `L` is recorded in `t` under the labelling `ρ`. -/
structure Registry (t : Trie α) (ρ : NodeId → List PathStep) (L : List (Insertion α)) : Prop where
  labelled : t.Labelled ρ
  /-- Every route of the log ends at a node. -/
  routed : ∀ e ∈ L, ∃ y, y < t.nodes.size ∧ ρ y = e.route.rootPath
  /-- Every node holds the table of the insertions whose route has its path. -/
  table : ∀ x, x < t.nodes.size → (t.node? x).bind Node.handlers = registered L (ρ x)
  /-- Every node other than the root lies on the way to a route of the log. -/
  covered : ∀ x, x < t.nodes.size → x ≠ rootId → ∃ e ∈ L, ρ x <+: e.route.rootPath

theorem registered_eq_none {L : List (Insertion α)} {path : List PathStep}
    (h : ∀ e ∈ L, e.route.rootPath ≠ path) : registered L path = none := by
  unfold registered
  rw [if_neg]
  intro hany
  obtain ⟨e, he, hpe⟩ := List.any_eq_true.1 hany
  exact h e he (by simpa using hpe)

/-- A node's table, or the empty table, is the table of the node's insertions. -/
theorem getD_registered (L : List (Insertion α)) (path : List PathStep) :
    (registered L path).getD .empty = HandlerTable.ofLog (L.filter (·.route.rootPath == path)) := by
  unfold registered
  split_ifs with h
  · rfl
  · have hnil : L.filter (·.route.rootPath == path) = [] := by
      rw [List.filter_eq_nil_iff]
      intro e he
      simpa using List.any_eq_false.1 (Bool.eq_false_iff.2 h) e he
    rw [hnil]
    rfl

/-- An insertion whose route has another path does not change a node's table. -/
theorem registered_append_of_ne (L : List (Insertion α)) {e : Insertion α} {path : List PathStep}
    (h : e.route.rootPath ≠ path) : registered (L ++ [e]) path = registered L path := by
  have he : (e.route.rootPath == path) = false := beq_eq_false_iff_ne.2 h
  simp [registered, List.any_append, List.filter_append, he]

/-- The insertion of a route of path `path` appends its handler to that path's table. -/
theorem registered_append_self (L : List (Insertion α)) (e : Insertion α) :
    registered (L ++ [e]) e.route.rootPath =
      some (((registered L e.route.rootPath).getD .empty).push e.method e.handler) := by
  rw [getD_registered, ← HandlerTable.ofLog_append_singleton]
  simp [registered, List.filter_append]

theorem node?_empty {p : NodeId} {n : Node α} (h : (Trie.empty : Trie α).node? p = some n) :
    n = { kind := .literal "/" } := by
  unfold Trie.empty node? at h
  rcases p with _ | p
  · simpa using h.symm
  · simp at h

theorem childIds_empty (p : NodeId) : (Trie.empty : Trie α).childIds p = [] := by
  rw [childIds_eq]
  cases h : (Trie.empty : Trie α).node? p with
  | none => rfl
  | some n => rw [node?_empty h]; rfl

/-- The empty trie is labelled by the empty path: it has the root alone. -/
theorem labelled_empty : (Trie.empty : Trie α).Labelled fun _ => [] where
  root_kind := rfl
  root_path := rfl
  child_lt p c h := by simp [childIds_empty] at h
  child_path p c h := by simp [childIds_empty] at h
  has_parent x hx hne := by
    have : x = 0 := by simp [Trie.empty] at hx; omega
    exact absurd this hne
  first_steps p := by simp [childIds_empty]
  literal_slot p n hn k c h := by simp [node?_empty hn] at h
  param_slot p n hn c h := by simp [node?_empty hn] at h
  wildcard_slot p n hn c h := by simp [node?_empty hn] at h
  param_regex x q c h := by
    obtain ⟨n, hn, hk⟩ := kind?_eq_some.1 h
    simp [node?_empty hn] at hk

/-! ## Insertions keep the registry -/

variable {t : Trie α} {ρ : NodeId → List PathStep} {L : List (Insertion α)}

theorem registry_empty : Registry (Trie.empty : Trie α) (fun _ => []) [] where
  labelled := labelled_empty
  routed _ he := absurd he List.not_mem_nil
  table x hx := by
    have hx0 : x = 0 := by simp [Trie.empty] at hx; omega
    subst hx0
    rfl
  covered x hx hne := by
    have hx0 : x = 0 := by simp [Trie.empty] at hx; omega
    exact absurd hx0 hne

/-- A descent keeps every table: the nodes it adds have none, and no route of the log has their
path, since each route already ends at an older node. -/
theorem Registry.table_of_reached {p q : NodeId} {s : List PathStep} {t₁ : Trie α}
    {ρ₁ : NodeId → List PathStep} (hR : Registry t ρ L) (hD : Reached t ρ p s t₁ ρ₁ q) :
    ∀ x, x < t₁.nodes.size → (t₁.node? x).bind Node.handlers = registered L (ρ₁ x) := by
  intro x hx
  rcases Nat.lt_or_ge x t.nodes.size with hold | hnew
  · rw [hD.grows.handlers_eq x hold, hR.table x hold, hD.grows.path_eq x hold]
  · rw [hD.grows.handlers_new x hnew, registered_eq_none]
    intro e he hpe
    obtain ⟨y, hy, hye⟩ := hR.routed e he
    have hyx : y = x := hD.labelled.path_inj (Nat.lt_of_lt_of_le hy hD.grows.size_le) hx
      (by rw [hD.grows.path_eq y hy, hye, hpe])
    omega

/-- An insertion keeps the registry, with the insertion at the end of the log: old nodes keep
their paths, and the route ends at the node labelled by its root path. -/
theorem Registry.insert {t' : Trie α} {e : Insertion α} {last : NodeId} (hR : Registry t ρ L)
    (h : t.insert e.method e.pattern e.route e.value = .ok (t', last)) :
    ∃ ρ', Registry t' ρ' (L ++ [e]) ∧ t.nodes.size ≤ t'.nodes.size ∧
      (∀ x, x < t.nodes.size → ρ' x = ρ x) ∧ last < t'.nodes.size ∧ ρ' last = e.route.rootPath := by
  obtain ⟨t₁, ρ', hD, rfl⟩ := insert_eq_ok hR.labelled h
  have hpath : ρ' last = e.route.rootPath := by
    rw [hD.target_path, hR.labelled.root_path, List.nil_append]
  have htab := hR.table_of_reached hD
  refine ⟨ρ', ⟨?_, ?_, ?_, ?_⟩, by simpa using hD.grows.size_le, fun x hx => hD.grows.path_eq x hx,
    by simpa using hD.target_lt, hpath⟩
  · exact labelled_reshape (fun _ => ⟨rfl, rfl, rfl⟩) (fun _ => .inl rfl) hD.labelled
  · intro e' he'
    rcases List.mem_append.1 he' with he' | he'
    · obtain ⟨y, hy, hye⟩ := hR.routed e' he'
      exact ⟨y, by simpa using Nat.lt_of_lt_of_le hy hD.grows.size_le, by rw [hD.grows.path_eq y hy, hye]⟩
    · rw [List.mem_singleton] at he'
      subst he'
      exact ⟨last, by simpa using hD.target_lt, hpath⟩
  · intro x hx
    rw [size_modify] at hx
    rw [node?_modify]
    by_cases hxl : x = last
    · subst hxl
      obtain ⟨n, hn⟩ := node?_of_lt hD.target_lt
      have hn' := htab x hD.target_lt
      rw [hn, Option.bind_some] at hn'
      rw [if_pos rfl, hn, hpath, registered_append_self, ← hpath, ← hn']
      rfl
    · rw [if_neg hxl, htab x hx, registered_append_of_ne]
      intro heq
      exact hxl (hD.labelled.path_inj hx hD.target_lt (by rw [hpath, heq]))
  · intro x hx hxr
    rw [size_modify] at hx
    rcases Nat.lt_or_ge x t.nodes.size with hold | hnew
    · obtain ⟨e', he', hpre⟩ := hR.covered x hold hxr
      exact ⟨e', List.mem_append_left _ he', by rw [hD.grows.path_eq x hold]; exact hpre⟩
    · have := hD.fresh_prefix x hnew hx
      rw [hR.labelled.root_path, List.nil_append] at this
      exact ⟨e, List.mem_append_right _ (List.mem_singleton_self e), this⟩

/-- Every built trie records its log. -/
theorem BuiltBy.registry (h : t.BuiltBy L) : ∃ ρ, Registry t ρ L := by
  induction h with
  | empty => exact ⟨_, registry_empty⟩
  | insert _ hins ih =>
    obtain ⟨ρ, hR⟩ := ih
    obtain ⟨ρ', hR', -⟩ := hR.insert hins
    exact ⟨ρ', hR'⟩

/-! ## Reading the registry -/

theorem handlers_eq_getD (t : Trie α) (x : NodeId) (k : String) (slot : MethodSlot) :
    t.handlers x k slot = (((t.node? x).bind Node.handlers).bind fun T => T.handlersAt k slot).getD [] := by
  unfold handlers
  cases t.node? x with
  | none => rfl
  | some n =>
    simp only [Option.bind_some]
    cases n.handlers <;> rfl

/-- The handlers of a node under a method are those of the insertions under the method whose
route has the node's path, in insertion order. -/
theorem Registry.handlers_exact (hR : Registry t ρ L) {x : NodeId} (hx : x < t.nodes.size)
    (k : String) :
    t.handlers x k .exact =
      (L.filter fun e => e.method == k && e.route.rootPath == ρ x).map Insertion.handler := by
  rw [handlers_eq_getD, hR.table x hx]
  unfold registered
  split_ifs with hany
  · simp only [Option.bind_some, HandlerTable.handlersAt]
    rw [HandlerTable.getD_get?_ofLog, List.filter_filter]
  · have hnil : L.filter (fun e => e.method == k && e.route.rootPath == ρ x) = [] := by
      rw [List.filter_eq_nil_iff]
      intro e he
      have := List.any_eq_false.1 (Bool.eq_false_iff.2 hany) e he
      simp_all
    rw [hnil]
    rfl

/-- In a trie built by insertions, root paths tell nodes apart, and they index the handlers: a
node's handlers under a method are, in insertion order, those of the insertions under the method
whose route has the node's root path, and a node whose root path is no route's has no table. -/
theorem rootPath_indexes_handlers (h : t.BuiltBy L) :
    (∀ x y, x < t.nodes.size → y < t.nodes.size → t.rootPath? x = t.rootPath? y → x = y) ∧
    ∀ x, x < t.nodes.size → ∃ path, t.rootPath? x = some path ∧
      (∀ k, t.handlers x k .exact =
        (L.filter fun e => e.method == k && e.route.rootPath == path).map Insertion.handler) ∧
      ((∀ e ∈ L, e.route.rootPath ≠ path) → (t.node? x).bind Node.handlers = none) := by
  obtain ⟨ρ, hR⟩ := h.registry
  refine ⟨fun x y hx hy hxy => ?_, fun x hx => ⟨ρ x, rootPath?_eq hR.labelled hx,
    hR.handlers_exact hx, fun hnone => ?_⟩⟩
  · rw [rootPath?_eq hR.labelled hx, rootPath?_eq hR.labelled hy] at hxy
    exact hR.labelled.path_inj hx hy (Option.some.inj hxy)
  · rw [hR.table x hx, registered_eq_none hnone]

/-- Two literal routes under different methods: the second splits the first's node, and each
handler sits alone at the node of its route. -/
theorem two_routes_indexed :
    let e₁ : Insertion Nat := ⟨"GET", "/ab", ⟨[.text "ab"], []⟩, 1⟩
    let e₂ : Insertion Nat := ⟨"POST", "/ac", ⟨[.text "ac"], []⟩, 2⟩
    let t : Trie Nat := ⟨#[{ kind := .literal "/", literals := [('a', 2)] },
      { kind := .literal "b", handlers := some ⟨[("GET", [⟨1, ⟨[]⟩⟩])]⟩ },
      { kind := .literal "a", literals := [('b', 1), ('c', 3)] },
      { kind := .literal "c", handlers := some ⟨[("POST", [⟨2, ⟨[]⟩⟩])]⟩ }]⟩
    t.BuiltBy [e₁, e₂] ∧
    ((∀ x y, x < t.nodes.size → y < t.nodes.size → t.rootPath? x = t.rootPath? y → x = y) ∧
    ∀ x, x < t.nodes.size → ∃ path, t.rootPath? x = some path ∧
      (∀ k, t.handlers x k .exact =
        ([e₁, e₂].filter fun e => e.method == k && e.route.rootPath == path).map Insertion.handler) ∧
      ((∀ e ∈ [e₁, e₂], e.route.rootPath ≠ path) → (t.node? x).bind Node.handlers = none)) := by
  intro e₁ e₂ t
  have h₁ : (Trie.empty : Trie Nat).insert "GET" "/ab" ⟨[.text "ab"], []⟩ 1 =
      .ok (⟨#[{ kind := .literal "/", literals := [('a', 1)] },
        { kind := .literal "ab", handlers := some ⟨[("GET", [⟨1, ⟨[]⟩⟩])]⟩ }]⟩, 1) := rfl
  have h₂ : Trie.insert ⟨#[{ kind := .literal "/", literals := [('a', 1)] },
        { kind := .literal "ab", handlers := some ⟨[("GET", [⟨1, ⟨[]⟩⟩])]⟩ }]⟩
      "POST" "/ac" ⟨[.text "ac"], []⟩ 2 =
      .ok (⟨#[{ kind := .literal "/", literals := [('a', 2)] },
        { kind := .literal "b", handlers := some ⟨[("GET", [⟨1, ⟨[]⟩⟩])]⟩ },
        { kind := .literal "a", literals := [('b', 1), ('c', 3)] },
        { kind := .literal "c", handlers := some ⟨[("POST", [⟨2, ⟨[]⟩⟩])]⟩ }]⟩, 3) := rfl
  have h : t.BuiltBy [e₁, e₂] := .insert (.insert .empty h₁) h₂
  exact ⟨h, rootPath_indexes_handlers h⟩

end Trie

end Routing
