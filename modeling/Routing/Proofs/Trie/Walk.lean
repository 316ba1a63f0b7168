import Mathlib.Data.Finset.Card
import Routing.Trie.Search
import Routing.Proofs.Trie.Registry
/-!
# The walk is the recursive search

`Trie.resolve` keeps the children still to try on an explicit stack; `Trie.search` tries them by
recursion. On every trie built by insertions the two agree, and the search answers the same for
every fuel above the number of nodes (`resolve_eq_search`).

The stack of the walk holds attempts whose subtrees are pairwise apart (`Pending`): the children
of one node have disjoint subtrees inside their parent's, apart from the siblings of the parent's
ancestors still waiting below them. Read so, the walk gives the first answer among the searches
from its attempts, in stack order (`Labelled.walk_eq_findSome`). Each step of the walk takes a
node out of the subtrees the stack covers (`load`), so fuel above the number of nodes never runs
out; a search goes one level down per call, and the number of nodes at or below where it starts
(`weight`) bounds its depth (`Labelled.search_fuel`).
-/

namespace Routing

namespace Trie

variable {α : Type} {t : Trie α} {ρ : NodeId → List PathStep}

/-! ## The children a walk tries -/

/-- The children tried from a place in the path are some of the node's children, in order. -/
theorem children_sublist (t : Trie α) (n : Node α) (rest : List Char) :
    (t.children n rest).Sublist n.childList := by
  unfold children Node.childList
  refine (List.Sublist.append_right ?_ _).append_right _
  split
  · split
    · rename_i id h
      split
      · exact List.singleton_sublist.2 (List.mem_map.2 ⟨(_, id), mem_of_lookup_eq_some h, rfl⟩)
      · exact List.nil_sublist _
    · exact List.nil_sublist _
  · exact List.nil_sublist _

theorem childrenAt_sublist (t : Trie α) (x : NodeId) (rest : List Char) :
    (t.childrenAt x rest).Sublist (t.childIds x) := by
  rw [childIds_eq]
  unfold childrenAt
  cases t.node? x with
  | none => exact List.nil_sublist _
  | some n => exact children_sublist t n rest

theorem mem_childIds_of_childrenAt {x c : NodeId} {rest : List Char} (h : c ∈ t.childrenAt x rest) :
    c ∈ t.childIds x :=
  (childrenAt_sublist t x rest).subset h

theorem findSome?_congr_of_mem {β γ : Type} {f g : β → Option γ} :
    ∀ {l : List β}, (∀ x ∈ l, f x = g x) → l.findSome? f = l.findSome? g
  | [], _ => rfl
  | x :: l, h => by
    rw [List.findSome?_cons, List.findSome?_cons, h x List.mem_cons_self,
      findSome?_congr_of_mem fun y hy => h y (List.mem_cons_of_mem x hy)]

namespace Labelled

theorem childrenAt_nodup (hL : t.Labelled ρ) (x : NodeId) (rest : List Char) :
    (t.childrenAt x rest).Nodup :=
  (childrenAt_sublist t x rest).nodup (hL.first_steps x).of_map

/-- Distinct children of a node have disjoint subtrees. -/
theorem child_eq_of_descends (hL : t.Labelled ρ) {x c₁ c₂ y : NodeId} (h₁ : c₁ ∈ t.childIds x)
    (h₂ : c₂ ∈ t.childIds x) (hy₁ : t.Descends c₁ y) (hy₂ : t.Descends c₂ y) : c₁ = c₂ :=
  hL.child_eq_of_prefix h₁ h₂ (hL.descends_prefix hy₁) (hL.descends_prefix hy₂)

theorem not_descends_of_child (hL : t.Labelled ρ) {x c : NodeId} (hc : c ∈ t.childIds x) :
    ¬ t.Descends c x := by
  intro h
  have h₁ := hL.path_length_lt hc
  have h₂ := (hL.descends_prefix h).length_le
  omega

end Labelled

/-! ## Searches and their fuel -/

open Classical in
/-- Among the nodes of the arena, fewer satisfy a predicate than a weaker one that also holds of
a node the first misses. -/
theorem card_filter_lt {P Q : NodeId → Prop} (hsub : ∀ y, Q y → P y) {x : NodeId}
    (hx : x < t.nodes.size) (hP : P x) (hQ : ¬ Q x) :
    ((Finset.range t.nodes.size).filter Q).card < ((Finset.range t.nodes.size).filter P).card := by
  apply Finset.card_lt_card
  refine (Finset.ssubset_iff_of_subset fun y hy => ?_).2 ⟨x, ?_, fun h => hQ (Finset.mem_filter.1 h).2⟩
  · obtain ⟨hy, hq⟩ := Finset.mem_filter.1 hy
    exact Finset.mem_filter.2 ⟨hy, hsub y hq⟩
  · exact Finset.mem_filter.2 ⟨Finset.mem_range.2 hx, hP⟩

open Classical in
/-- The number of nodes at or below a node. -/
noncomputable def weight (t : Trie α) (x : NodeId) : Nat :=
  ((Finset.range t.nodes.size).filter (t.Descends x)).card

theorem weight_le (t : Trie α) (x : NodeId) : t.weight x ≤ t.nodes.size := by
  classical
  exact (Finset.card_filter_le _ _).trans (Finset.card_range _).le

theorem Labelled.weight_lt_of_child (hL : t.Labelled ρ) {x c : NodeId} (hc : c ∈ t.childIds x) :
    t.weight c < t.weight x := by
  obtain ⟨n, hn⟩ := node?_of_mem_childIds hc
  exact card_filter_lt (fun _ hy => .child hc hy) (lt_size_of_node? hn) (.refl x)
    (hL.not_descends_of_child hc)

section Search

variable [Regex.Engine]

/-- Enters the node of an attempt and searches from there. -/
def attempt (t : Trie α) (method : String) (fuel : Nat) (a : Attempt) : Option Traversal :=
  match t.enter a.node a.rest a.values with
  | some (rest, values) => t.search method fuel a.node rest values
  | none => none

theorem search_succ (method : String) (fuel : Nat) (x : NodeId) (rest : List Char)
    (values : Array String) :
    t.search method (fuel + 1) x rest values =
      match (if rest.isEmpty then t.answers x method else none) with
      | some slot => some { node := x, slot, values }
      | none => (t.childrenAt x rest).findSome? fun c => t.attempt method fuel ⟨c, rest, values⟩ :=
  rfl

/-- A search needs no more fuel than there are nodes at or below where it starts: it goes one
level down per call, and a child has fewer nodes below it than its parent. -/
theorem Labelled.search_fuel (hL : t.Labelled ρ) (method : String) :
    ∀ fuel fuel' x rest values, t.weight x < fuel → t.weight x < fuel' →
      t.search method fuel x rest values = t.search method fuel' x rest values := by
  intro fuel
  induction fuel with
  | zero => intro _ _ _ _ h; omega
  | succ fuel ih =>
    intro fuel' x rest values h h'
    cases fuel' with
    | zero => omega
    | succ fuel' =>
      have hkids : ∀ c ∈ t.childrenAt x rest,
          t.attempt method fuel ⟨c, rest, values⟩ = t.attempt method fuel' ⟨c, rest, values⟩ := by
        intro c hc
        have hw := hL.weight_lt_of_child (mem_childIds_of_childrenAt hc)
        unfold attempt
        split
        · exact ih fuel' c _ _ (by omega) (by omega)
        · rfl
      rw [search_succ, search_succ, findSome?_congr_of_mem hkids]

theorem Labelled.attempt_fuel (hL : t.Labelled ρ) (method : String) {fuel fuel' : Nat} {a : Attempt}
    (h : t.weight a.node < fuel) (h' : t.weight a.node < fuel') :
    t.attempt method fuel a = t.attempt method fuel' a := by
  unfold attempt
  split
  · exact hL.search_fuel method _ _ _ _ _ h h'
  · rfl

end Search

/-! ## The stack of the walk -/

/-- The attempts on the walk's stack: nodes of the arena whose subtrees are pairwise apart. -/
structure Pending (t : Trie α) (stack : List Attempt) : Prop where
  lt_size : ∀ a ∈ stack, a.node < t.nodes.size
  apart : stack.Pairwise fun a b => ∀ y, t.Descends a.node y → ¬ t.Descends b.node y

open Classical in
/-- The number of nodes the stack still covers: those at or below one of its attempts. -/
noncomputable def load (t : Trie α) (stack : List Attempt) : Nat :=
  ((Finset.range t.nodes.size).filter fun y => ∃ a ∈ stack, t.Descends a.node y).card

theorem load_le (t : Trie α) (stack : List Attempt) : t.load stack ≤ t.nodes.size := by
  classical
  exact (Finset.card_filter_le _ _).trans (Finset.card_range _).le

/-- A stack that covers no more nodes than another, and misses one node of the arena the other
covers, covers fewer nodes. -/
theorem load_lt {s s' : List Attempt} {x : NodeId}
    (hsub : ∀ y, (∃ b ∈ s', t.Descends b.node y) → ∃ b ∈ s, t.Descends b.node y)
    (hx : x < t.nodes.size) (hin : ∃ b ∈ s, t.Descends b.node x)
    (hout : ¬ ∃ b ∈ s', t.Descends b.node x) : t.load s' < t.load s := by
  unfold load
  convert card_filter_lt hsub hx hin hout

namespace Pending

variable {a : Attempt} {s : List Attempt}

theorem pop (h : t.Pending (a :: s)) : t.Pending s :=
  ⟨fun b hb => h.lt_size b (List.mem_cons_of_mem a hb), (List.pairwise_cons.1 h.apart).2⟩

/-- Dropping an attempt uncovers its node. -/
theorem load_pop (h : t.Pending (a :: s)) : t.load s < t.load (a :: s) := by
  refine load_lt (fun y ⟨b, hb, hy⟩ => ⟨b, List.mem_cons_of_mem a hb, hy⟩)
    (h.lt_size a List.mem_cons_self) ⟨a, List.mem_cons_self, .refl _⟩ ?_
  rintro ⟨b, hb, hab⟩
  exact (List.pairwise_cons.1 h.apart).1 b hb a.node (.refl _) hab

/-- Replacing an attempt by the attempts of the children it tries keeps the stack's subtrees
apart: the children's subtrees are disjoint and lie inside the parent's. -/
theorem expand (hL : t.Labelled ρ) (h : t.Pending (a :: s)) (rest : List Char)
    (values : Array String) :
    t.Pending ((t.childrenAt a.node rest).map (fun id => ⟨id, rest, values⟩) ++ s) := by
  have hapart := List.pairwise_cons.1 h.apart
  constructor
  · intro b hb
    rcases List.mem_append.1 hb with hb | hb
    · obtain ⟨c, hc, rfl⟩ := List.mem_map.1 hb
      exact hL.child_lt _ _ (mem_childIds_of_childrenAt hc)
    · exact h.lt_size b (List.mem_cons_of_mem a hb)
  · refine List.pairwise_append.2 ⟨?_, hapart.2, ?_⟩
    · refine List.pairwise_map.2 ((hL.childrenAt_nodup a.node rest).imp_of_mem ?_)
      intro c₁ c₂ hc₁ hc₂ hne y hy₁ hy₂
      exact hne (hL.child_eq_of_descends (mem_childIds_of_childrenAt hc₁)
        (mem_childIds_of_childrenAt hc₂) hy₁ hy₂)
    · intro b hb b' hb' y hy
      obtain ⟨c, hc, rfl⟩ := List.mem_map.1 hb
      exact hapart.1 b' hb' y (.child (mem_childIds_of_childrenAt hc) hy)

/-- Replacing an attempt by the attempts of its children uncovers its node. -/
theorem load_expand (hL : t.Labelled ρ) (h : t.Pending (a :: s)) (rest : List Char)
    (values : Array String) :
    t.load ((t.childrenAt a.node rest).map (fun id => ⟨id, rest, values⟩) ++ s) <
      t.load (a :: s) := by
  have hapart := List.pairwise_cons.1 h.apart
  refine load_lt ?_ (h.lt_size a List.mem_cons_self) ⟨a, List.mem_cons_self, .refl _⟩ ?_
  · rintro y ⟨b, hb, hy⟩
    rcases List.mem_append.1 hb with hb | hb
    · obtain ⟨c, hc, rfl⟩ := List.mem_map.1 hb
      exact ⟨a, List.mem_cons_self, .child (mem_childIds_of_childrenAt hc) hy⟩
    · exact ⟨b, List.mem_cons_of_mem a hb, hy⟩
  · rintro ⟨b, hb, hab⟩
    rcases List.mem_append.1 hb with hb | hb
    · obtain ⟨c, hc, rfl⟩ := List.mem_map.1 hb
      exact hL.not_descends_of_child (mem_childIds_of_childrenAt hc) hab
    · exact hapart.1 b hb a.node (.refl _) hab

end Pending

/-! ## The walk -/

section Walk

variable [Regex.Engine]

/-- The walk answers the first answer among the searches from the attempts on its stack. The
induction is on the walk's steps; the stack covers fewer nodes after each. -/
theorem Labelled.walk_eq_findSome (hL : t.Labelled ρ) (method : String) {fuel : Nat}
    (hfuel : t.nodes.size < fuel) :
    ∀ steps stack, t.Pending stack → t.load stack < steps →
      t.walk method steps stack = stack.findSome? (t.attempt method fuel) := by
  intro steps
  induction steps with
  | zero => intro _ _ h; omega
  | succ steps ih =>
    intro stack hP hload
    cases stack with
    | nil => rfl
    | cons a s =>
      rw [List.findSome?_cons]
      cases henter : t.enter a.node a.rest a.values with
      | none =>
        -- the attempt fails on entry: the walk drops it
        have hfail : t.attempt method fuel a = none := by simp [attempt, henter]
        simp only [walk, henter, hfail]
        exact ih s hP.pop (by have := hP.load_pop; omega)
      | some entered =>
        obtain ⟨rest, values⟩ := entered
        obtain ⟨fuel, rfl⟩ : ∃ f, fuel = f + 1 := ⟨fuel - 1, by omega⟩
        have hsearch : t.attempt method (fuel + 1) a = t.search method (fuel + 1) a.node rest values := by
          simp [attempt, henter]
        simp only [walk, henter, hsearch, search_succ]
        cases hans : (if rest.isEmpty then t.answers a.node method else none) with
        | some slot => rfl
        | none =>
          -- the node does not answer: its children go on top of the stack
          simp only
          rw [ih _ (hP.expand hL rest values) (by have := hP.load_expand hL rest values; omega),
            List.findSome?_append, List.findSome?_map]
          have hkids : ∀ c ∈ t.childrenAt a.node rest,
              ((t.attempt method (fuel + 1)) ∘ fun id => (⟨id, rest, values⟩ : Attempt)) c =
                t.attempt method fuel ⟨c, rest, values⟩ := by
            intro c hc
            have hw := hL.weight_lt_of_child (mem_childIds_of_childrenAt hc)
            have hx := t.weight_le a.node
            exact hL.attempt_fuel method (by simp only; omega) (by simp only; omega)
          rw [findSome?_congr_of_mem hkids]
          cases (t.childrenAt a.node rest).findSome? fun c => t.attempt method fuel ⟨c, rest, values⟩ <;> rfl

/-- On a labelled arena, the walk from the root answers as the search from the root, with any
fuel above the number of nodes. -/
theorem Labelled.resolve_search (hL : t.Labelled ρ) (method : String) {path : String}
    {rest : List Char} (hpath : path.toList = '/' :: rest) {fuel : Nat}
    (hfuel : t.nodes.size < fuel) :
    t.resolve method path = t.search method fuel rootId rest #[] := by
  have hstart : t.Pending [⟨rootId, '/' :: rest, #[]⟩] :=
    ⟨by simpa using hL.root_lt, List.pairwise_singleton _ _⟩
  have hroot : t.enter rootId ('/' :: rest) #[] = some (rest, #[]) := by
    have hk : (t.node? rootId).map Node.kind = some (.literal "/") := hL.root_kind
    have hlen : "/".length = 1 := by decide
    simp [enter, hk, hlen]
  unfold resolve
  rw [hpath]
  simp only
  rw [hL.walk_eq_findSome method hfuel _ _ hstart (Nat.lt_succ_of_le (t.load_le _))]
  simp [attempt, hroot]

/-- On every trie built by insertions, the walk with its explicit stack answers as the recursive
search from the root, with any fuel above the number of nodes: static child first, then the
parameter children in order, then the wildcard, each tried from the place and with the values
its parent had. -/
theorem resolve_eq_search {L : List (Insertion α)} (h : t.BuiltBy L) (method : String)
    {path : String} {rest : List Char} (hpath : path.toList = '/' :: rest) {fuel : Nat}
    (hfuel : t.nodes.size < fuel) :
    t.resolve method path = t.search method fuel rootId rest #[] := by
  obtain ⟨ρ, hR⟩ := h.registry
  exact hR.labelled.resolve_search method hpath hfuel

end Walk

/-- Three routes below `/a/` and a wildcard route under `ALL`. For `GET /a/b/d` the walk enters
the literal `b/`, finds no `d` below it and backtracks to the parameter `:x`; for `POST /files/x/y`
it falls back to the `ALL` entry of the wildcard. Both answers are the search's. -/
theorem walk_backtracks_as_search :
    let L : List (Insertion Nat) := [⟨"GET", "/a/b/c", ⟨[.text "a/b/c"], []⟩, 1⟩,
      ⟨"GET", "/a/b/e", ⟨[.text "a/b/e"], []⟩, 2⟩,
      ⟨"GET", "/a/:x/d", ⟨[.text "a/", .param ⟨none, none, ":x"⟩, .text "/d"], ["x"]⟩, 3⟩,
      ⟨"ALL", "/files/*", ⟨[.text "files/", .wildcard], ["*"]⟩, 4⟩]
    let t := (build L).getD .empty
    t.BuiltBy L ∧
      t.resolve "GET" "/a/b/d" = t.search "GET" 10 rootId "a/b/d".toList #[] ∧
      t.resolve "POST" "/files/x/y" = t.search "POST" 10 rootId "files/x/y".toList #[] ∧
      (t.search "GET" 10 rootId "a/b/d".toList #[]).map (fun tr => (tr.node, tr.slot, tr.values)) =
        some (6, .exact, #["b"]) ∧
      (t.search "POST" 10 rootId "files/x/y".toList #[]).map
        (fun tr => (tr.node, tr.slot, tr.values)) = some (8, .fallback, #["x/y"]) := by
  intro L t
  have hb : t.BuiltBy L := builtBy_build (by decide +kernel)
  exact ⟨hb, resolve_eq_search hb "GET" (by decide) (by decide +kernel),
    resolve_eq_search hb "POST" (by decide) (by decide +kernel), by decide +kernel⟩

end Trie

end Routing
