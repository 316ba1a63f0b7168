import Routing.Proofs.Trie.Walk
import Routing.Proofs.Template.Reading
/-!
# What the search finds

On a labelled arena, entering a child the search tries reads the child's own steps off the path
(`Labelled.enter_eq`), and a child whose own steps can be read is tried (`Labelled.mem_childrenAt`).
So the search is sound: what it finds is a node that answers the method, whose root path, read
from where the search started, reads the whole path and gives the values found
(`Labelled.search_sound`). It is complete: when some node below answers the method and its root
path reads the whole path, the search finds a node (`Labelled.search_complete`), though not
necessarily that one, since it takes the first in priority order.

Over the insertion log of a trie, a node answers a method when a route of the log ends there
under that method, or else under `ALL` (`Registry.answers_eq`).
-/

namespace Routing

namespace Trie

variable {α : Type} {t : Trie α} {ρ : NodeId → List PathStep}

/-! ## Entering a child -/

theorem mem_children {n : Node α} {rest : List Char} {c : NodeId} :
    c ∈ t.children n rest ↔
      (∃ k, rest.head? = some k ∧ n.literals.lookup k = some c ∧ (t.text c).toList.isPrefixOf rest) ∨
        c ∈ n.params ∨ n.wildcard = some c := by
  unfold children
  simp only [List.mem_append, Option.mem_toList, or_assoc]
  apply or_congr_left
  cases rest with
  | nil => simp
  | cons k r =>
    cases h : n.literals.lookup k with
    | none => simp [h]
    | some id =>
      by_cases hp : (t.text id).toList.isPrefixOf (k :: r)
      · simp only [h, hp, if_true, List.mem_singleton, List.head?_cons, Option.some.injEq]
        constructor
        · rintro rfl
          exact ⟨k, rfl, h, hp⟩
        · rintro ⟨_, rfl, hc, -⟩
          exact Option.some.inj (hc.symm.trans h)
      · simp only [h, hp, Bool.false_eq_true, if_false, List.not_mem_nil, List.head?_cons,
          Option.some.injEq, false_iff]
        rintro ⟨_, rfl, hc, hpc⟩
        cases h.symm.trans hc
        exact hp hpc

theorem Labelled.lookup_of_mem (hL : t.Labelled ρ) {p : NodeId} {n : Node α} (hn : t.node? p = some n)
    {k : Char} {c : NodeId} (hkc : (k, c) ∈ n.literals) : n.literals.lookup k = some c := by
  cases h : n.literals.lookup k with
  | none =>
    have := List.lookup_eq_none_iff.1 h (k, c) hkc
    simp at this
  | some c' =>
    exact congrArg some ((hL.literal_key_iff hn hkc (k, c') (mem_of_lookup_eq_some h)).1 rfl)

section Search

variable [Regex.Engine]

/-- Entering a node reads the steps of its kind off the path, a literal node's text once the
walk has checked it is next. -/
theorem Labelled.enter_of_kind (hL : t.Labelled ρ) {c : NodeId} {k : NodeKind}
    (hk : t.kind? c = some k) {rest : List Char} (hpre : ∀ s, k = .literal s → s.toList.isPrefixOf rest)
    (values : Array String) :
    t.enter c rest values = (readSteps k.steps rest).map fun p => (p.2, values ++ p.1.toArray) := by
  have hk' : (t.node? c).map Node.kind = some k := hk
  cases k with
  | literal s =>
    simp [enter, hk', NodeKind.steps, readSteps_chars, hpre s rfl, String.length_toList]
  | param q =>
    simp only [enter, hk', NodeKind.steps, readSteps, PathStep.read, ParamNode.signature]
    cases hc : q.constraint with
    | none => simp [segmentValues?]
    | some cst =>
      have hparse := hL.param_regex c q cst hk hc
      simp only [Option.map_some, segmentValues?, hparse]
      cases cst.regex.groupValues? (String.ofList (rest.takeWhile (· != '/'))) <;> simp
  | wildcard =>
    simp [enter, hk', NodeKind.steps, readSteps, PathStep.read]

/-- Entering a child the walk tries reads the child's own steps off the path. -/
theorem Labelled.enter_eq (hL : t.Labelled ρ) {x c : NodeId} {rest : List Char}
    (hc : c ∈ t.childrenAt x rest) (values : Array String) :
    t.enter c rest values =
      (readSteps (t.ownSteps c) rest).map fun p => (p.2, values ++ p.1.toArray) := by
  obtain ⟨n, hn⟩ := node?_of_mem_childIds (mem_childIds_of_childrenAt hc)
  have hc' : c ∈ t.children n rest := by simpa [childrenAt, hn] using hc
  obtain ⟨k, hk⟩ : ∃ k, t.kind? c = some k := by
    rcases mem_children.1 hc' with ⟨_, _, hlook, _⟩ | hpar | hwild
    · obtain ⟨s, hs, -⟩ := hL.literal_slot x n hn _ c (mem_of_lookup_eq_some hlook)
      exact ⟨_, hs⟩
    · obtain ⟨q, hq⟩ := hL.param_slot x n hn c hpar
      exact ⟨_, hq⟩
    · exact ⟨_, hL.wildcard_slot x n hn c hwild⟩
  rw [ownSteps_of_kind hk]
  refine hL.enter_of_kind hk (fun s hs => ?_) values
  subst hs
  -- a literal child is tried only when its text comes next
  rcases mem_children.1 hc' with ⟨_, _, _, hpre⟩ | hpar | hwild
  · rwa [text_of_literal hk] at hpre
  · obtain ⟨q, hq⟩ := hL.param_slot x n hn c hpar
    cases hk.symm.trans hq
  · cases hk.symm.trans (hL.wildcard_slot x n hn c hwild)

/-- A child whose own steps can be read off the path is tried. -/
theorem Labelled.mem_childrenAt (hL : t.Labelled ρ) {x c : NodeId} {rest : List Char}
    (hc : c ∈ t.childIds x) (hread : (readSteps (t.ownSteps c) rest).isSome) :
    c ∈ t.childrenAt x rest := by
  obtain ⟨n, hn, hmem⟩ := mem_childIds.1 hc
  simp only [childrenAt, hn]
  rcases hmem with ⟨k, hkc⟩ | hpar | hwild
  · obtain ⟨s, hs, hhead⟩ := hL.literal_slot x n hn k c hkc
    rw [ownSteps_of_kind hs, NodeKind.steps, readSteps_chars] at hread
    have hpre : s.toList.isPrefixOf rest := by
      by_contra h
      simp [h] at hread
    -- the text starts with the key, so the path does too
    obtain ⟨tl, hs'⟩ : ∃ tl, s.toList = k :: tl := by
      cases h : s.toList with
      | nil => simp [h] at hhead
      | cons a tl => simp [h] at hhead; exact ⟨tl, by rw [hhead]⟩
    obtain ⟨r, hr⟩ : ∃ r, rest = k :: r := by
      cases rest with
      | nil => simp [hs'] at hpre
      | cons d r =>
        simp only [hs', List.isPrefixOf, Bool.and_eq_true, beq_iff_eq] at hpre
        exact ⟨r, by rw [hpre.1]⟩
    exact mem_children.2 (.inl ⟨k, by simp [hr], hL.lookup_of_mem hn hkc, by rwa [text_of_literal hs]⟩)
  · exact mem_children.2 (.inr (.inl hpar))
  · exact mem_children.2 (.inr (.inr hwild))

/-! ## Soundness and completeness of the search -/

/-- What the search finds answers the method, and its root path, read from where the search
started, reads the whole path and gives the values found. The induction is on the fuel, one
level of the search each. -/
theorem Labelled.search_sound (hL : t.Labelled ρ) (method : String) :
    ∀ fuel x rest values tr, t.search method fuel x rest values = some tr →
      ∃ steps vs, ρ tr.node = ρ x ++ steps ∧ readSteps steps rest = some (vs, []) ∧
        tr.values = values ++ vs.toArray ∧ t.answers tr.node method = some tr.slot := by
  intro fuel
  induction fuel with
  | zero => intro _ _ _ _ h; cases h
  | succ fuel ih =>
    intro x rest values tr h
    rw [search_succ] at h
    split at h
    · -- the node answers, the whole path read
      rename_i slot hans
      cases h
      have hrest : rest = [] := by
        by_contra hne
        simp [hne] at hans
      subst hrest
      exact ⟨[], [], by simp, rfl, by simp, by simpa using hans⟩
    · obtain ⟨c, hc, hatt⟩ := List.exists_of_findSome?_eq_some h
      unfold attempt at hatt
      split at hatt
      · rename_i r' v' henter
        obtain ⟨steps, vs, hpath, hread, hvals, hans⟩ := ih c r' v' tr hatt
        rw [hL.enter_eq hc] at henter
        obtain ⟨⟨vs₁, r₁⟩, hread₁, heq⟩ := Option.map_eq_some_iff.1 henter
        cases heq
        refine ⟨t.ownSteps c ++ steps, vs₁ ++ vs, ?_, ?_, ?_, hans⟩
        · rw [hpath, hL.child_path x c (mem_childIds_of_childrenAt hc), List.append_assoc]
        · simp [readSteps_append, hread₁, hread]
        · simp [hvals, Array.append_assoc]
      · cases hatt

/-- When a node below answers the method and its root path, read from where the search starts,
reads the whole path, the search finds a node. The induction is on the way down to that node;
the child on the way is tried, since its own steps are read. -/
theorem Labelled.search_complete (hL : t.Labelled ρ) (method : String) {x y : NodeId}
    (hxy : t.Descends x y) :
    ∀ fuel rest values steps vs, t.weight x < fuel → ρ y = ρ x ++ steps →
      readSteps steps rest = some (vs, []) → (t.answers y method).isSome →
        (t.search method fuel x rest values).isSome := by
  induction hxy with
  | refl x =>
    intro fuel rest values steps vs hfuel hpath hread hans
    have hsteps : steps = [] := by simpa using hpath
    subst hsteps
    have hrest : rest = [] := by
      simp only [readSteps, Option.some.injEq, Prod.mk.injEq] at hread
      exact hread.2
    subst hrest
    obtain ⟨fuel, rfl⟩ : ∃ f, fuel = f + 1 := ⟨fuel - 1, by omega⟩
    obtain ⟨slot, hslot⟩ := Option.isSome_iff_exists.1 hans
    simp [search_succ, hslot]
  | @child x c y hc hcy ih =>
    intro fuel rest values steps vs hfuel hpath hread hans
    -- the steps below `x` are the child's own steps, then the steps below the child
    obtain ⟨steps', hsteps'⟩ := hL.descends_prefix hcy
    have hsplit : steps = t.ownSteps c ++ steps' := by
      rw [hL.child_path x c hc, List.append_assoc, hpath] at hsteps'
      exact (List.append_cancel_left hsteps').symm
    rw [hsplit, readSteps_append] at hread
    obtain ⟨⟨vs₁, r₁⟩, hread₁, hrest⟩ := Option.bind_eq_some_iff.1 hread
    obtain ⟨⟨vs₂, r₂⟩, hread₂, heq⟩ := Option.map_eq_some_iff.1 hrest
    simp only [Prod.mk.injEq] at heq
    obtain ⟨-, rfl⟩ := heq
    have hmem : c ∈ t.childrenAt x rest := hL.mem_childrenAt hc (by simp [hread₁])
    obtain ⟨fuel, rfl⟩ : ∃ f, fuel = f + 1 := ⟨fuel - 1, by omega⟩
    have hw := hL.weight_lt_of_child hc
    have hbelow := ih fuel r₁ (values ++ vs₁.toArray) steps' vs₂ (by omega) hsteps'.symm hread₂ hans
    rw [search_succ]
    split
    · rfl
    · refine List.findSome?_isSome_iff.2 ⟨c, hmem, ?_⟩
      simpa [attempt, hL.enter_eq hmem, hread₁] using hbelow

end Search

/-! ## Answers over the insertion log -/

/-- A node answers a method with its own entry when a route of the log ends there under the
method, and else with the `ALL` entry when one ends there under `ALL`. -/
theorem Registry.answers_eq {L : List (Insertion α)} (hR : Registry t ρ L) {y : NodeId}
    (hy : y < t.nodes.size) (method : String) :
    t.answers y method =
      if L.any (fun e => e.route.rootPath == ρ y && e.method == method) then some .exact
      else if L.any (fun e => e.route.rootPath == ρ y && e.method == allMethods) then some .fallback
      else none := by
  unfold answers
  rw [hR.table y hy, registered]
  split_ifs with hpath hexact hall hexact hall
  · simp [HandlerTable.resolve, HandlerTable.get?_ofLog, List.any_filter, hexact]
  · simp [HandlerTable.resolve, HandlerTable.get?_ofLog, List.any_filter, hexact, hall]
  · simp [HandlerTable.resolve, HandlerTable.get?_ofLog, List.any_filter, hexact, hall]
  · simp only [List.any_eq_true, Bool.and_eq_true] at hexact hpath
    obtain ⟨e, he, hp, -⟩ := hexact
    exact absurd ⟨e, he, hp⟩ hpath
  · simp only [List.any_eq_true, Bool.and_eq_true] at hall hpath
    obtain ⟨e, he, hp, -⟩ := hall
    exact absurd ⟨e, he, hp⟩ hpath
  · rfl

theorem lt_size_of_answers {y : NodeId} {method : String} {slot : MethodSlot}
    (h : t.answers y method = some slot) : y < t.nodes.size := by
  unfold answers at h
  cases hy : t.node? y with
  | none => simp [hy] at h
  | some n => exact lt_size_of_node? hy

/-- A node that answers a method ends a route of the log under the method, or, when none ends
there under the method, one under `ALL`. -/
theorem Registry.route_of_answers {L : List (Insertion α)} (hR : Registry t ρ L) {y : NodeId}
    (hy : y < t.nodes.size) {method : String} {slot : MethodSlot}
    (h : t.answers y method = some slot) :
    ∃ e ∈ L, e.route.rootPath = ρ y ∧
      (slot = .exact ∧ e.method = method ∨
        slot = .fallback ∧ e.method = allMethods ∧
          ∀ e' ∈ L, e'.route.rootPath = ρ y → e'.method ≠ method) := by
  rw [hR.answers_eq hy] at h
  split_ifs at h with hexact hall
  · cases h
    obtain ⟨e, he, hp⟩ := List.any_eq_true.1 hexact
    simp only [Bool.and_eq_true, beq_iff_eq] at hp
    exact ⟨e, he, hp.1, .inl ⟨rfl, hp.2⟩⟩
  · cases h
    obtain ⟨e, he, hp⟩ := List.any_eq_true.1 hall
    simp only [Bool.and_eq_true, beq_iff_eq] at hp
    refine ⟨e, he, hp.1, .inr ⟨rfl, hp.2, fun e' he' hpath hm => hexact ?_⟩⟩
    exact List.any_eq_true.2 ⟨e', he', by simp [hpath, hm]⟩

/-- A node where a route of the log ends under a method, or under `ALL`, answers the method. -/
theorem Registry.answers_isSome {L : List (Insertion α)} (hR : Registry t ρ L) {y : NodeId}
    (hy : y < t.nodes.size) {e : Insertion α} (he : e ∈ L) (hpath : e.route.rootPath = ρ y)
    {method : String} (hm : e.method = method ∨ e.method = allMethods) :
    (t.answers y method).isSome := by
  rw [hR.answers_eq hy]
  by_cases hexact : L.any (fun e => e.route.rootPath == ρ y && e.method == method)
  · rw [if_pos hexact]
    rfl
  · rcases hm with hm | hm
    · exact absurd (List.any_eq_true.2 ⟨e, he, by simp [hpath, hm]⟩) hexact
    · rw [if_neg hexact, if_pos (List.any_eq_true.2 ⟨e, he, by simp [hpath, hm]⟩)]
      rfl

section Walk

variable [Regex.Engine]

/-- A node that answers a method, and whose root path reads all of a path after its `/`, ends a
route of the log that reads the path with the same values: one under the method, or one under
`ALL` when the node has no entry for the method. -/
theorem Registry.route_reads {L : List (Insertion α)} (hR : Registry t ρ L) {path : String}
    {rest : List Char} (hpath : path.toList = '/' :: rest) {y : NodeId} (hy : y < t.nodes.size)
    {method : String} {slot : MethodSlot} (hans : t.answers y method = some slot)
    {vs : List String} (hread : readSteps (ρ y) rest = some (vs, [])) :
    ∃ e ∈ L, t.rootPath? y = some e.route.rootPath ∧
      (slot = .exact ∧ e.method = method ∨
        slot = .fallback ∧ e.method = allMethods ∧
          ∀ e' ∈ L, e'.route.rootPath = e.route.rootPath → e'.method ≠ method) ∧
      e.route.pathValues? path = some vs := by
  obtain ⟨e, he, hρ, hcase⟩ := hR.route_of_answers hy hans
  refine ⟨e, he, by rw [rootPath?_eq hR.labelled hy, hρ], by rwa [hρ],
    pathValues?_eq_some.2 ⟨rest, hpath, by rwa [hρ]⟩⟩

/-! ## The walk from the root -/

/-- What the walk finds from the root answers the method, and its root path reads all of the path
after the leading `/`, giving the values found. -/
theorem Registry.resolve_sound {L : List (Insertion α)} (hR : Registry t ρ L) {method path : String}
    {tr : Traversal} (h : t.resolve method path = some tr) :
    ∃ rest vs, path.toList = '/' :: rest ∧ tr.node < t.nodes.size ∧
      readSteps (ρ tr.node) rest = some (vs, []) ∧ tr.values = vs.toArray ∧
      t.answers tr.node method = some tr.slot := by
  have hL := hR.labelled
  -- a path that does not start with `/` is not walked
  obtain ⟨rest, hpath⟩ : ∃ rest, path.toList = '/' :: rest := by
    unfold resolve at h
    split at h
    · rename_i rest hp
      exact ⟨rest, hp⟩
    · cases h
  rw [hL.resolve_search method hpath (Nat.lt_succ_self _)] at h
  obtain ⟨steps, vs, hρ, hread, hvals, hans⟩ := hL.search_sound method _ _ _ _ _ h
  rw [hL.root_path, List.nil_append] at hρ
  exact ⟨rest, vs, hpath, lt_size_of_answers hans, hρ ▸ hread, by simpa using hvals, hans⟩

/-- When a route of the log under a method, or under `ALL`, reads all of the path after the
leading `/`, the walk from the root finds a node. -/
theorem Registry.resolve_complete {L : List (Insertion α)} (hR : Registry t ρ L)
    {method path : String} {rest : List Char} (hpath : path.toList = '/' :: rest)
    {e : Insertion α} (he : e ∈ L) (hm : e.method = method ∨ e.method = allMethods)
    {vs : List String} (hread : readSteps e.route.rootPath rest = some (vs, [])) :
    (t.resolve method path).isSome := by
  have hL := hR.labelled
  obtain ⟨y, hy, hρ⟩ := hR.routed e he
  rw [hL.resolve_search method hpath (Nat.lt_succ_self _)]
  exact hL.search_complete method (hL.reach y hy) _ rest #[] (ρ y) vs
    (Nat.lt_succ_of_le (t.weight_le _)) (by rw [hL.root_path, List.nil_append]) (hρ ▸ hread)
    (hR.answers_isSome hy he hρ.symm hm)

end Walk

end Trie

end Routing
