import Routing.Proofs.Router.LiteralRoutes
import Routing.Proofs.Router.Tree
import Routing.Proofs.Trie.Priority

/-!
# The search read along root paths

A trie stores literal text compressed: one node holds a whole run of characters that no route
leaves in the middle. The unfolded trie of a log has a node for every beginning of a route's root
path, one step each. `Unfolded.search` searches it as the walk searches a trie: at a path, it
answers when the path is read and a route ends there (`Unfolded.answers`), and otherwise tries the
steps that lead on to a route (`Unfolded.next`): the next character, the parameter signatures in an
order it is given, and the wildcard.

On every registry of a log, the search from a node agrees with the unfolded search from the node's
path, the parameters taken in the trie's own order (`Trie.paramOrder`), and the answers read by
root paths (`Registry.searchAgrees`, `Registry.resolve_unfolded`). Compression is invisible: where
two node paths part, there is a node (`Labelled.node_of_fork`), so strictly inside the text of a
literal node the only step that leads on is the text's next character
(`Registry.next_inside_literal`), and the unfolded search reads the text as the walk does
(`Registry.search_inside_literal`). The unfolded search reads the log only through which paths
lead to a route and which routes end where, neither of which depends on the order of the log
(`Unfolded.search_congr`, `Unfolded.leadsTo_perm`, `Unfolded.answers_perm`).
-/

namespace Routing

variable {α : Type}

theorem findSome?_filterMap {β γ δ : Type} (l : List β) (f : β → Option γ) (g : γ → Option δ) :
    (l.filterMap f).findSome? g = l.findSome? fun b => (f b).bind g := by
  induction l with
  | nil => rfl
  | cons b l ih =>
    cases hb : f b with
    | none => simp only [List.filterMap_cons, hb, List.findSome?_cons, Option.bind_none, ih]
    | some c => simp only [List.filterMap_cons, hb, List.findSome?_cons, Option.bind_some, ih]

theorem prefix_getElem?_eq {β : Type} {l₁ l₂ : List β} (h : l₁ <+: l₂) {i : Nat} (hi : i < l₁.length) :
    l₁[i]? = l₂[i]? := by
  obtain ⟨t, rfl⟩ := h
  rw [List.getElem?_append_left hi]

namespace Unfolded

/-- Whether a root path leads to a route of the log: it begins the root path of one. -/
def leadsTo (L : List (Insertion α)) (π : List PathStep) : Bool :=
  L.any fun e => π.isPrefixOf e.route.rootPath

/-- The slot a log answers a method with at a root path: the method's own entry when a route of
the method ends there, else the `ALL` entry when a route of `ALL` does. -/
def answers (L : List (Insertion α)) (π : List PathStep) (method : String) : Option MethodSlot :=
  if L.any (fun e => e.route.rootPath == π && e.method == method) then some .exact
  else if L.any (fun e => e.route.rootPath == π && e.method == allMethods) then some .fallback
  else none

/-- The steps tried after the root path `π` with the path `rest` left, in priority order: the
next character, the parameter signatures in the order `order` gives, and the wildcard; of these,
those that lead to a route. -/
def next (L : List (Insertion α)) (order : List PathStep → List (Option String))
    (π : List PathStep) (rest : List Char) : List PathStep :=
  (rest.head?.toList.map PathStep.char ++ (order π).map PathStep.param ++ [PathStep.wildcard]).filter
    fun s => leadsTo L (π ++ [s])

variable [Regex.Engine] in
/-- The search of the unfolded trie of a log, one root-path step at a time: at the root path
`π` with the path `rest` left, it answers when the path is read and a route ends there, and
otherwise tries the next steps in order, each read off the same place, taking the first
answer. -/
def search (L : List (Insertion α)) (order : List PathStep → List (Option String)) (method : String) :
    Nat → List PathStep → List Char → Array String →
      Option (List PathStep × MethodSlot × Array String)
  | 0, _, _, _ => none
  | fuel + 1, π, rest, values =>
    match (if rest.isEmpty then answers L π method else none) with
    | some slot => some (π, slot, values)
    | none =>
      (next L order π rest).findSome? fun s =>
        match s.read rest with
        | some (vs, rest') => search L order method fuel (π ++ [s]) rest' (values ++ vs.toArray)
        | none => none

variable [Regex.Engine] in
theorem search_succ (L : List (Insertion α)) (order : List PathStep → List (Option String))
    (method : String) (fuel : Nat) (π : List PathStep) (rest : List Char) (values : Array String) :
    search L order method (fuel + 1) π rest values =
      match (if rest.isEmpty then answers L π method else none) with
      | some slot => some (π, slot, values)
      | none =>
        (next L order π rest).findSome? fun s =>
          match s.read rest with
          | some (vs, rest') => search L order method fuel (π ++ [s]) rest' (values ++ vs.toArray)
          | none => none :=
  rfl

theorem leadsTo_iff {L : List (Insertion α)} {π : List PathStep} :
    leadsTo L π = true ↔ ∃ e ∈ L, π <+: e.route.rootPath := by
  simp [leadsTo, List.isPrefixOf_iff_prefix]

theorem leadsTo_of_prefix {L : List (Insertion α)} {π π' : List PathStep} (h : π <+: π')
    (h' : leadsTo L π' = true) : leadsTo L π = true := by
  obtain ⟨e, he, hpre⟩ := leadsTo_iff.1 h'
  exact leadsTo_iff.2 ⟨e, he, h.trans hpre⟩

variable [Regex.Engine] in
/-- The unfolded search depends on the log and the order only through the steps it tries and
the answers it reads. -/
theorem search_congr {L L' : List (Insertion α)} {order order' : List PathStep → List (Option String)}
    {method : String} (hnext : ∀ π rest, next L order π rest = next L' order' π rest)
    (hans : ∀ π, answers L π method = answers L' π method) :
    ∀ fuel π rest values,
      search L order method fuel π rest values = search L' order' method fuel π rest values := by
  intro fuel
  induction fuel with
  | zero => intro _ _ _; rfl
  | succ fuel ih => intro π rest values; simp only [search_succ, hans, hnext, ih]

theorem leadsTo_perm {L L' : List (Insertion α)} (h : L.Perm L') : leadsTo L = leadsTo L' := by
  funext π
  exact h.any_eq

theorem answers_perm {L L' : List (Insertion α)} (h : L.Perm L') : answers L = answers L' := by
  funext π method
  simp only [answers, h.any_eq]

end Unfolded

namespace Trie

namespace Labelled

variable {t : Trie α} {ρ : NodeId → List PathStep}

/-- Where the paths of two nodes part, there is a node: the common beginning of two node paths,
when the steps after it differ, is itself the path of a node. The induction goes down from a
common ancestor whose path begins the common one. -/
theorem node_of_fork (hL : t.Labelled ρ) {y₁ y₂ : NodeId} {π : List PathStep}
    (hy₁ : y₁ < t.nodes.size) (hy₂ : y₂ < t.nodes.size) (h₁ : π <+: ρ y₁) (h₂ : π <+: ρ y₂)
    (hne : (ρ y₁)[π.length]? ≠ (ρ y₂)[π.length]?) : ∃ y, y < t.nodes.size ∧ ρ y = π := by
  suffices key : ∀ a, t.Descends a y₁ → t.Descends a y₂ → ρ a <+: π → ∃ y, y < t.nodes.size ∧ ρ y = π by
    exact key rootId (hL.reach y₁ hy₁) (hL.reach y₂ hy₂) (hL.root_path ▸ List.nil_prefix)
  intro a had₁
  induction had₁ with
  | refl a => exact fun _ ha => ⟨a, hy₁, ha.eq_of_length (Nat.le_antisymm ha.length_le h₁.length_le)⟩
  | @child a c y hc hcy ih =>
    intro had₂ ha
    obtain ⟨na, hna⟩ := node?_of_mem_childIds hc
    by_cases hπ : ρ a = π
    · exact ⟨a, lt_size_of_node? hna, hπ⟩
    have hlt : (ρ a).length < π.length :=
      Nat.lt_of_le_of_ne ha.length_le fun h => hπ (ha.eq_of_length h)
    cases had₂ with
    | refl => exact absurd (ha.eq_of_length (Nat.le_antisymm ha.length_le h₂.length_le)) hπ
    | child hc₂ hcy₂ =>
      rename_i c₂
      -- both children start with the step of `π` after the parent's path
      have hcy := hL.descends_prefix hcy
      have hcy₂' := hL.descends_prefix hcy₂
      have hcc : c = c₂ := by
        apply List.inj_on_of_nodup_map (hL.first_steps a) hc hc₂
        rw [hL.head_ownSteps_of_prefix hc hcy, hL.head_ownSteps_of_prefix hc₂ hcy₂',
          ← prefix_getElem?_eq h₁ hlt, ← prefix_getElem?_eq h₂ hlt]
      subst hcc
      rcases List.prefix_or_prefix_of_prefix hcy h₁ with hcπ | hπc
      · exact ih hy₁ h₁ hne hcy₂ hcπ
      · by_cases hlen : π.length < (ρ c).length
        · exact absurd ((prefix_getElem?_eq hcy hlen).symm.trans (prefix_getElem?_eq hcy₂' hlen)) hne
        · exact ⟨c, hL.child_lt a c hc, (hπc.eq_of_length (by have := hπc.length_le; omega)).symm⟩

/-- Past its first step, a node's own steps are characters: only literal nodes have more than
one. -/
theorem char_of_ownSteps (t : Trie α) {c : NodeId} {i : Nat} {s : PathStep}
    (h : (t.ownSteps c)[i + 1]? = some s) : ∃ ch, s = .char ch := by
  rw [ownSteps_eq] at h
  cases hk : t.kind? c with
  | none => simp [hk] at h
  | some k =>
    cases k with
    | literal w =>
      simp only [hk, Option.map_some, Option.getD_some, NodeKind.steps, List.getElem?_map] at h
      obtain ⟨ch, -, rfl⟩ := Option.map_eq_some_iff.1 h
      exact ⟨ch, rfl⟩
    | param q => simp [hk, NodeKind.steps] at h
    | wildcard => simp [hk, NodeKind.steps] at h

/-- Before a step that is no character, there is a node: a parameter or wildcard step is the
whole of a node's own steps. -/
theorem node_of_step (hL : t.Labelled ρ) {y : NodeId} {π : List PathStep} {s : PathStep}
    (hy : y < t.nodes.size) (h : π ++ [s] <+: ρ y) (hs : ∀ ch, s ≠ .char ch) :
    ∃ x, x < t.nodes.size ∧ ρ x = π := by
  have hπ : π <+: ρ y := (List.prefix_append π [s]).trans h
  have hstep : (ρ y)[π.length]? = some s := by
    rw [← prefix_getElem?_eq h (by simp)]
    simp
  suffices key : ∀ a, t.Descends a y → ρ a <+: π → ∃ x, x < t.nodes.size ∧ ρ x = π by
    exact key rootId (hL.reach y hy) (hL.root_path ▸ List.nil_prefix)
  intro a had
  induction had with
  | refl a =>
    -- `y`'s path is longer than `π`, which it cannot begin
    intro ha
    have h₁ := h.length_le
    have h₂ := ha.length_le
    rw [List.length_append, List.length_singleton] at h₁
    omega
  | @child a c y hc hcy ih =>
    intro ha
    obtain ⟨na, hna⟩ := node?_of_mem_childIds hc
    by_cases hπa : ρ a = π
    · exact ⟨a, lt_size_of_node? hna, hπa⟩
    have hlt : (ρ a).length < π.length :=
      Nat.lt_of_le_of_ne ha.length_le fun h => hπa (ha.eq_of_length h)
    have hcy := hL.descends_prefix hcy
    rcases List.prefix_or_prefix_of_prefix hcy hπ with hcπ | hπc
    · exact ih hy h hπ hstep hcπ
    · by_cases hlen : π.length < (ρ c).length
      · -- the step after `π` lies inside the child's own steps, past their first
        have hat := (prefix_getElem?_eq hcy hlen).trans hstep
        rw [hL.child_path a c hc, List.getElem?_append_right (Nat.le_of_lt hlt),
          show π.length - (ρ a).length = (π.length - (ρ a).length - 1) + 1 by omega] at hat
        obtain ⟨ch, rfl⟩ := char_of_ownSteps t hat
        exact absurd rfl (hs ch)
      · exact ⟨c, hL.child_lt a c hc, (hπc.eq_of_length (by have := hπc.length_le; omega)).symm⟩

/-- A step read after a node's path, on the way to another node, is the first step of a child on
that way. -/
theorem child_of_step (hL : t.Labelled ρ) {x y : NodeId} {s : PathStep} (hx : x < t.nodes.size)
    (hy : y < t.nodes.size) (h : ρ x ++ [s] <+: ρ y) :
    ∃ c ∈ t.childIds x, (t.ownSteps c).head? = some s ∧ t.Descends c y := by
  have hd := hL.descends_of_prefix (hL.reach x hx) (hL.reach y hy) ((List.prefix_append _ _).trans h)
  cases hd with
  | refl =>
    have := h.length_le
    simp only [List.length_append, List.length_singleton] at this
    omega
  | child hc hcy =>
    refine ⟨_, hc, ?_, hcy⟩
    rw [hL.head_ownSteps_of_prefix hc (hL.descends_prefix hcy), ← prefix_getElem?_eq h (by simp)]
    simp

end Labelled

/-! ## The trie read along root paths -/

/-- The node with a root path, if there is one. -/
def nodeAt? (t : Trie α) (π : List PathStep) : Option NodeId :=
  (t.rootPaths.find? fun e => e.2 == π).map (·.1)

/-- The signatures of the parameter children of the node with the root path `π`, in the order
they are tried; none when no node has that path. -/
def paramOrder (t : Trie α) (π : List PathStep) : List (Option String) :=
  match t.nodeAt? π with
  | some x => (((t.node? x).map (·.params)).getD []).filterMap fun c => (t.param? c).map (·.signature)
  | none => []

variable {t : Trie α} {ρ : NodeId → List PathStep}

theorem Labelled.nodeAt?_eq_some (hL : t.Labelled ρ) {π : List PathStep} {x : NodeId} :
    t.nodeAt? π = some x ↔ x < t.nodes.size ∧ ρ x = π := by
  unfold nodeAt?
  constructor
  · intro h
    obtain ⟨⟨y, w⟩, hfind, rfl⟩ := Option.map_eq_some_iff.1 h
    obtain ⟨hpath, hy⟩ := of_mem_rootPaths hL (List.mem_of_find?_eq_some hfind)
    have hw : w = π := by simpa using List.find?_some hfind
    exact ⟨hy, hpath ▸ hw⟩
  · rintro ⟨hx, rfl⟩
    have hsome : (t.rootPaths.find? fun e => e.2 == ρ x).isSome :=
      List.find?_isSome.2 ⟨_, mem_rootPaths hL hx, beq_self_eq_true _⟩
    obtain ⟨⟨y, w⟩, hfind⟩ := Option.isSome_iff_exists.1 hsome
    obtain ⟨hpath, hy⟩ := of_mem_rootPaths hL (List.mem_of_find?_eq_some hfind)
    have hwx : w = ρ x := by simpa using List.find?_some hfind
    rw [hfind, hL.path_inj hy hx (hpath.symm.trans hwx)]
    rfl

/-- At the path of a node, the order is that of its parameter children. -/
theorem Labelled.paramOrder_eq (hL : t.Labelled ρ) {x : NodeId} {n : Node α} (hn : t.node? x = some n) :
    t.paramOrder (ρ x) = n.params.filterMap fun c => (t.param? c).map (·.signature) := by
  rw [paramOrder, (hL.nodeAt?_eq_some (x := x)).2 ⟨lt_size_of_node? hn, rfl⟩]
  simp [hn]

/-! ## A registry read along root paths -/

section Registry

variable {L : List (Insertion α)}

open Unfolded

/-- The path of every node below the root leads to a route. -/
theorem Registry.leadsTo_child (hR : Registry t ρ L) {x c : NodeId} (hc : c ∈ t.childIds x) :
    leadsTo L (ρ c) = true := by
  obtain ⟨e, he, hpre⟩ := hR.covered c (hR.labelled.child_lt x c hc)
    fun h => hR.labelled.root_not_mem_childIds x (h ▸ hc)
  exact leadsTo_iff.2 ⟨e, he, hpre⟩

/-- A path that leads to a route begins the path of a node, the route's own. -/
theorem Registry.node_of_leadsTo (hR : Registry t ρ L) {π : List PathStep} (h : leadsTo L π = true) :
    ∃ y, y < t.nodes.size ∧ π <+: ρ y := by
  obtain ⟨e, he, hpre⟩ := leadsTo_iff.1 h
  obtain ⟨y, hy, hpath⟩ := hR.routed e he
  exact ⟨y, hy, hpath ▸ hpre⟩

/-- No route ends where no node is. -/
theorem Registry.answers_eq_none (hR : Registry t ρ L) {π : List PathStep}
    (h : ∀ y, y < t.nodes.size → ρ y ≠ π) (method : String) : Unfolded.answers L π method = none := by
  have hno : ∀ e ∈ L, e.route.rootPath ≠ π := fun e he hpath => by
    obtain ⟨y, hy, hy'⟩ := hR.routed e he
    exact h y hy (hy'.trans hpath)
  unfold Unfolded.answers
  rw [if_neg, if_neg] <;> simp only [List.any_eq_true, Bool.and_eq_true, beq_iff_eq, not_exists, not_and] <;>
    exact fun e he hpath _ => hno e he hpath

section Inside

variable (hR : Registry t ρ L) {x ch : NodeId} (hch : ch ∈ t.childIds x) {w : String}
  (hk : t.kind? ch = some (.literal w))
include hR hch hk

/-- No node has its path strictly inside the text of a literal node. -/
theorem Registry.not_node_inside_literal {u v : List Char} (hw : w.toList = u ++ v) (hu : u ≠ [])
    (hv : v ≠ []) : ∀ y, y < t.nodes.size → ρ y ≠ ρ x ++ u.map .char := by
  have hL := hR.labelled
  have hpath : ρ ch = ρ x ++ u.map .char ++ v.map .char := by
    rw [hL.child_path x ch hch, ownSteps_of_kind hk, NodeKind.steps, hw, List.map_append,
      List.append_assoc]
  intro y hy hy'
  obtain ⟨nx, hnx⟩ := node?_of_mem_childIds hch
  have hxy := hL.descends_of_prefix (hL.reach x (lt_size_of_node? hnx)) (hL.reach y hy)
    (hy' ▸ List.prefix_append _ _)
  cases hxy with
  | refl => simp [hu] at hy'
  | child hc hcy =>
    -- the child on the way to `y` is `ch`, whose path is longer than `y`'s
    have hcy := hL.descends_prefix hcy
    have hcc := hL.child_eq_of_prefix hc hch (hcy.trans (hy' ▸ hpath ▸ List.prefix_append _ _))
      (List.prefix_refl _)
    subst hcc
    have hlen := hcy.length_le
    rw [hpath, hy'] at hlen
    simp only [List.length_append, List.length_map] at hlen
    exact hv (List.eq_nil_of_length_eq_zero (by omega))

/-- Strictly inside the text of a literal node, the only step that leads to a route is the next
character of the text: any other would part from the text where no node is. -/
theorem Registry.next_inside_literal {u v : List Char} {d : Char} (hw : w.toList = u ++ d :: v)
    (hu : u ≠ []) (order : List PathStep → List (Option String)) (rest : List Char) :
    next L order (ρ x ++ u.map .char) rest = if rest.head? = some d then [.char d] else [] := by
  have hL := hR.labelled
  have hnode := hR.not_node_inside_literal hch hk hw hu (List.cons_ne_nil d v)
  have hpath : ρ ch = ρ x ++ u.map .char ++ [.char d] ++ v.map .char := by
    rw [hL.child_path x ch hch, ownSteps_of_kind hk, NodeKind.steps, hw]
    simp
  have hpre : ρ x ++ u.map .char ++ [.char d] <+: ρ ch := hpath ▸ List.prefix_append _ _
  have hd : leadsTo L (ρ x ++ u.map .char ++ [.char d]) = true :=
    leadsTo_of_prefix hpre (hR.leadsTo_child hch)
  -- any other step would part from the text where no node is
  have honly : ∀ s, leadsTo L (ρ x ++ u.map .char ++ [s]) = true → s = .char d := by
    intro s hs
    by_contra hne
    obtain ⟨y, hy, hys⟩ := hR.node_of_leadsTo hs
    have hat : ∀ {a z : List PathStep} {b : PathStep}, a ++ [b] <+: z → z[a.length]? = some b :=
      fun h => by rw [← prefix_getElem?_eq h (by simp)]; simp
    obtain ⟨z, hz, hzpath⟩ := hL.node_of_fork hy (hL.child_lt _ _ hch)
      ((List.prefix_append _ _).trans hys) ((List.prefix_append _ _).trans hpre)
      (by rw [hat hys, hat hpre]; exact fun h => hne (Option.some.inj h))
    exact hnode z hz hzpath
  have hnone : ∀ l : List PathStep, (∀ s ∈ l, s ≠ .char d) →
      l.filter (fun s => leadsTo L (ρ x ++ u.map .char ++ [s])) = [] :=
    fun l hl => List.filter_eq_nil_iff.2 fun s hs hlead => hl s hs (honly s hlead)
  unfold next
  rw [List.filter_append, List.filter_append, hnone ((order _).map PathStep.param) (by simp),
    hnone [.wildcard] (by simp)]
  cases rest with
  | nil => simp
  | cons d' r =>
    simp only [List.head?_cons, Option.toList_some, List.map_cons, List.map_nil, List.append_nil,
      Option.some.injEq]
    by_cases hdd : d' = d
    · subst hdd
      simp only [List.filter_cons, hd, List.filter_nil, if_true]
    · have hlead : leadsTo L (ρ x ++ u.map .char ++ [.char d']) = false :=
        Bool.eq_false_iff.2 fun h => hdd (PathStep.char.inj (honly _ h))
      simp only [List.filter_cons, hlead, List.filter_nil, hdd, if_false, Bool.false_eq_true]

variable [Regex.Engine] in
/-- From strictly inside the text of a literal node, the search reads the rest of the text one
character at a time and goes on from the node, or fails when the path does not go on with the
text; nothing else is tried on the way. The induction is on the text left. -/
theorem Registry.search_inside_literal (order : List PathStep → List (Option String))
    (method : String) :
    ∀ v u, w.toList = u ++ v → u ≠ [] → ∀ fuel rest values,
      Unfolded.search L order method fuel (ρ x ++ u.map .char) rest values =
        if v.isPrefixOf rest then
          Unfolded.search L order method (fuel - v.length) (ρ ch) (rest.drop v.length) values
        else none := by
  have hL := hR.labelled
  intro v
  induction v with
  | nil =>
    intro u hw _ fuel rest values
    have hpath : ρ ch = ρ x ++ u.map .char := by
      rw [hL.child_path x ch hch, ownSteps_of_kind hk, NodeKind.steps, hw, List.append_nil]
    simp [hpath]
  | cons d v ih =>
    intro u hw hu fuel rest values
    cases fuel with
    | zero => cases v.isPrefixOf rest <;> simp [Unfolded.search]
    | succ fuel =>
      have hans : (if rest.isEmpty then Unfolded.answers L (ρ x ++ u.map .char) method else none) =
          none := by
        split
        · exact hR.answers_eq_none (hR.not_node_inside_literal hch hk hw hu (List.cons_ne_nil d v))
            method
        · rfl
      rw [Unfolded.search_succ, hans]
      dsimp only
      rw [hR.next_inside_literal hch hk hw hu]
      cases rest with
      | nil => simp
      | cons d' r =>
        by_cases hdd : d' = d
        · -- the next character: one step further inside the text
          subst hdd
          have hread : PathStep.read (.char d') (d' :: r) = some ([], r) := by simp [PathStep.read]
          have hstep := ih (u ++ [d']) (by simp [hw]) (by simp) fuel r values
          rw [List.map_append, List.map_singleton, ← List.append_assoc] at hstep
          simp only [List.head?_cons, if_true, List.findSome?_singleton, hread, Array.append_empty,
            hstep, List.isPrefixOf_cons_cons_self, List.length_cons, Nat.add_sub_add_right,
            List.drop_succ_cons]
        · simp only [List.head?_cons, Option.some.injEq, hdd, if_false, List.findSome?_nil,
            List.isPrefixOf_cons_cons, beq_iff_eq, Bool.and_eq_true]
          exact (if_neg fun h => hdd h.1.symm).symm

end Inside

/-- A step after a node's path that leads to a route is the first step of one of its children. -/
theorem Registry.child_of_leadsTo (hR : Registry t ρ L) {x : NodeId} (hx : x < t.nodes.size)
    {s : PathStep} (h : leadsTo L (ρ x ++ [s]) = true) :
    ∃ c ∈ t.childIds x, (t.ownSteps c).head? = some s := by
  obtain ⟨y, hy, hpre⟩ := hR.node_of_leadsTo h
  obtain ⟨c, hc, hhead, -⟩ := hR.labelled.child_of_step hx hy hpre
  exact ⟨c, hc, hhead⟩

variable [Regex.Engine] in
/-- The search from a node agrees with the unfolded search from its path, for every fuel of the
unfolded search that covers the routes of the log (`K` bounds their lengths). -/
def SearchAgrees (t : Trie α) (ρ : NodeId → List PathStep) (L : List (Insertion α)) (method : String)
    (K fuel : Nat) (x : NodeId) : Prop :=
  ∀ rest values fuel', K < fuel' + (ρ x).length →
    (t.search method fuel x rest values).map (fun tr => (ρ tr.node, tr.slot, tr.values)) =
      Unfolded.search L t.paramOrder method fuel' (ρ x) rest values

/-- The signatures the order lists below a path are those of the parameter steps that lead on
from it to a route. -/
theorem Registry.mem_paramOrder (hR : Registry t ρ L) {π : List PathStep} {a : Option String} :
    a ∈ t.paramOrder π ↔ leadsTo L (π ++ [.param a]) = true := by
  have hL := hR.labelled
  constructor
  · intro ha
    cases hx : t.nodeAt? π with
    | none => simp [paramOrder, hx] at ha
    | some x =>
      obtain ⟨hxs, rfl⟩ := hL.nodeAt?_eq_some.1 hx
      obtain ⟨n, hn⟩ := node?_of_lt hxs
      rw [hL.paramOrder_eq hn] at ha
      obtain ⟨c, hc, hca⟩ := List.mem_filterMap.1 ha
      obtain ⟨q, hq⟩ := hL.param_slot x n hn c hc
      have hcx : c ∈ t.childIds x := mem_childIds.2 ⟨n, hn, .inr (.inl hc)⟩
      rw [param?_eq_some_iff.2 hq, Option.map_some, Option.some.injEq] at hca
      have hpath : ρ c = ρ x ++ [.param a] := by
        rw [hL.child_path x c hcx, ownSteps_of_kind hq, ← hca]
        rfl
      exact hpath ▸ hR.leadsTo_child hcx
  · intro ha
    obtain ⟨y, hy, hpre⟩ := hR.node_of_leadsTo ha
    obtain ⟨x, hxs, rfl⟩ := hL.node_of_step hy hpre (fun _ h => by cases h)
    obtain ⟨n, hn⟩ := node?_of_lt hxs
    obtain ⟨c, hc, hhead, -⟩ := hL.child_of_step hxs hy hpre
    rw [hL.paramOrder_eq hn]
    rcases hL.head_ownSteps hn hc with ⟨k, -, hk⟩ | ⟨hcp, q, hq, hqs⟩ | ⟨-, hw⟩
    · simp [hk] at hhead
    · rw [hqs, Option.some.injEq, PathStep.param.injEq] at hhead
      exact List.mem_filterMap.2 ⟨c, hcp, by rw [param?_eq_some_iff.2 hq, Option.map_some, hhead]⟩
    · simp [hw] at hhead

/-- No signature is listed twice below a path: the children of a node start with different
steps. -/
theorem Labelled.paramOrder_nodup (hL : t.Labelled ρ) (π : List PathStep) : (t.paramOrder π).Nodup := by
  cases hx : t.nodeAt? π with
  | none => simp [paramOrder, hx]
  | some x =>
    obtain ⟨hxs, rfl⟩ := hL.nodeAt?_eq_some.1 hx
    obtain ⟨n, hn⟩ := node?_of_lt hxs
    rw [hL.paramOrder_eq hn]
    have hchild : ∀ c ∈ n.params, c ∈ t.childIds x := fun c hc => mem_childIds.2 ⟨n, hn, .inr (.inl hc)⟩
    have hparams : n.params.Nodup := by
      have hids : (t.childIds x).Nodup := (hL.first_steps x).of_map _
      rw [childIds_eq, hn, Option.map_some, Option.getD_some, Node.childList] at hids
      exact (List.nodup_append.1 (List.nodup_append.1 hids).1).2.1
    -- two parameter children with one signature would start with the same step
    have hhead : ∀ c ∈ n.params, ∀ b, b ∈ (t.param? c).map (·.signature) →
        (t.ownSteps c).head? = some (.param b) := by
      intro c hc b hb
      obtain ⟨q, hq⟩ := hL.param_slot x n hn c hc
      rw [param?_eq_some_iff.2 hq, Option.map_some, Option.mem_some_iff] at hb
      subst hb
      rw [ownSteps_of_kind hq]
      rfl
    refine List.pairwise_filterMap.2 (hparams.imp_of_mem fun hc hc' hne b hb b' hb' hbb => hne ?_)
    subst hbb
    exact List.inj_on_of_nodup_map (hL.first_steps x) (hchild _ hc) (hchild _ hc')
      ((hhead _ hc b hb).trans (hhead _ hc' b hb').symm)

theorem length_le_of_leadsTo {K : Nat} (hK : ∀ e ∈ L, e.route.rootPath.length ≤ K) {π : List PathStep}
    (h : leadsTo L π = true) : π.length ≤ K := by
  obtain ⟨e, he, hpre⟩ := leadsTo_iff.1 h
  exact hpre.length_le.trans (hK e he)

section Step

variable (hR : Registry t ρ L) {x : NodeId} {n : Node α} (hn : t.node? x = some n)
include hR hn

/-- No character step leads on from a node without a literal child keyed by the character. -/
theorem Registry.leadsTo_char_eq_false {k : Char} (hlook : n.literals.lookup k = none) :
    leadsTo L (ρ x ++ [.char k]) = false := by
  have hL := hR.labelled
  refine Bool.eq_false_iff.2 fun h => ?_
  obtain ⟨c, hc, hhead⟩ := hR.child_of_leadsTo (lt_size_of_node? hn) h
  rcases hL.head_ownSteps hn hc with ⟨k', hkc, hk'⟩ | ⟨-, q, -, hq⟩ | ⟨-, hw⟩
  · obtain rfl : k' = k := by simpa [hk'] using hhead
    rw [hL.lookup_of_mem hn hkc] at hlook
    cases hlook
  · simp [hq] at hhead
  · simp [hw] at hhead

/-- No wildcard step leads on from a node without a wildcard child. -/
theorem Registry.leadsTo_wildcard_eq_false (hw : n.wildcard = none) :
    leadsTo L (ρ x ++ [.wildcard]) = false := by
  have hL := hR.labelled
  refine Bool.eq_false_iff.2 fun h => ?_
  obtain ⟨c, hc, hhead⟩ := hR.child_of_leadsTo (lt_size_of_node? hn) h
  rcases hL.head_ownSteps hn hc with ⟨k', -, hk'⟩ | ⟨-, q, -, hq⟩ | ⟨hwc, -⟩
  · simp [hk'] at hhead
  · simp [hq] at hhead
  · rw [hw] at hwc
    cases hwc

variable [Regex.Engine] (method : String) {K : Nat} (hK : ∀ e ∈ L, e.route.rootPath.length ≤ K)
  {fuel f : Nat}
  (hchild : ∀ c ∈ t.childIds x, SearchAgrees t ρ L method K fuel c)
  (hfuel : K < f + 1 + (ρ x).length)
include hK hchild hfuel

/-- The literal child keyed by the next character: entered when its whole text comes next, as the
unfolded search reads the text character by character. -/
theorem Registry.findSome?_literal {k : Char} {r : List Char} {c : NodeId}
    (hlook : n.literals.lookup k = some c) (values : Array String) :
    (if (t.text c).toList.isPrefixOf (k :: r) then [c] else []).findSome?
        (fun c => (t.attempt method fuel ⟨c, k :: r, values⟩).map fun tr => (ρ tr.node, tr.slot, tr.values)) =
      ([PathStep.char k].filter fun s => leadsTo L (ρ x ++ [s])).findSome? fun s =>
        match s.read (k :: r) with
        | some (vs, rest') => Unfolded.search L t.paramOrder method f (ρ x ++ [s]) rest' (values ++ vs.toArray)
        | none => none := by
  have hL := hR.labelled
  have hcx : c ∈ t.childIds x := mem_childIds.2 ⟨n, hn, .inl ⟨k, mem_of_lookup_eq_some hlook⟩⟩
  obtain ⟨w, hk, hhead⟩ := hL.literal_slot x n hn k c (mem_of_lookup_eq_some hlook)
  obtain ⟨w', hw⟩ : ∃ w', w.toList = k :: w' := by
    cases h : w.toList with
    | nil => simp [h] at hhead
    | cons a w' => exact ⟨w', by simpa [h] using hhead⟩
  have hpath : ρ c = ρ x ++ [.char k] ++ w'.map .char := by
    rw [hL.child_path x c hcx, ownSteps_of_kind hk, NodeKind.steps, hw]
    simp
  have hlead : leadsTo L (ρ x ++ [.char k]) = true :=
    leadsTo_of_prefix (hpath ▸ List.prefix_append _ _) (hR.leadsTo_child hcx)
  have hlen := length_le_of_leadsTo hK (hR.leadsTo_child hcx)
  rw [hpath] at hlen
  simp only [List.length_append, List.length_singleton, List.length_map] at hlen
  -- the unfolded search reads the first character, then the rest of the text
  have hrun := hR.search_inside_literal hcx hk t.paramOrder method w' [k] (by rw [hw]; rfl)
    (List.cons_ne_nil k []) f r values
  simp only [List.map_cons, List.map_nil] at hrun
  simp only [List.filter_cons, hlead, if_true, List.filter_nil, List.findSome?_singleton,
    PathStep.read, if_true, Array.append_empty, hrun, text_of_literal hk, hw,
    List.isPrefixOf_cons_cons_self]
  cases hpre : w'.isPrefixOf r with
  | false => rfl
  | true =>
    simp only [if_true, List.findSome?_singleton, attempt, enter_literal hk, ← String.length_toList,
      hw, List.length_cons, List.drop_succ_cons]
    have hcover : K < f - w'.length + (ρ c).length := by
      rw [hpath]
      simp only [List.length_append, List.length_map, List.length_singleton]
      omega
    exact hchild c hcx _ _ _ hcover

omit hK hn in
/-- A child one step below the node, a parameter or the wildcard: attempting it reads its step,
then goes on as the unfolded search from the step's path. -/
theorem Registry.attempt_step {c : NodeId} {kd : NodeKind} {s : PathStep} (hcx : c ∈ t.childIds x)
    (hk : t.kind? c = some kd) (hsteps : kd.steps = [s]) (hlit : ∀ w, kd ≠ .literal w)
    (rest : List Char) (values : Array String) :
    (t.attempt method fuel ⟨c, rest, values⟩).map (fun tr => (ρ tr.node, tr.slot, tr.values)) =
      match s.read rest with
      | some (vs, rest') => Unfolded.search L t.paramOrder method f (ρ x ++ [s]) rest' (values ++ vs.toArray)
      | none => none := by
  have hL := hR.labelled
  have hpath : ρ c = ρ x ++ [s] := by
    rw [hL.child_path x c hcx, ownSteps_of_kind hk, hsteps]
  have hcover : K < f + (ρ c).length := by
    rw [hpath, List.length_append, List.length_singleton]
    omega
  rw [attempt, hL.enter_of_kind hk (fun w h => absurd h (hlit w)) values, hsteps]
  cases hread : s.read rest with
  | none => simp [readSteps, hread]
  | some p =>
    obtain ⟨vs, rest'⟩ := p
    simp only [readSteps, hread, Option.bind_some, Option.map_some, List.append_nil]
    rw [← hpath]
    exact hchild c hcx _ _ _ hcover

omit hK in
/-- The parameter children, tried in the order the unfolded search tries their signatures. -/
theorem Registry.findSome?_params (rest : List Char) (values : Array String) :
    n.params.findSome?
        (fun c => (t.attempt method fuel ⟨c, rest, values⟩).map fun tr => (ρ tr.node, tr.slot, tr.values)) =
      (((t.paramOrder (ρ x)).map PathStep.param).filter fun s => leadsTo L (ρ x ++ [s])).findSome?
        fun s =>
          match s.read rest with
          | some (vs, rest') => Unfolded.search L t.paramOrder method f (ρ x ++ [s]) rest' (values ++ vs.toArray)
          | none => none := by
  have hL := hR.labelled
  -- a parameter child reads one step, its signature
  have hchildPath : ∀ c ∈ n.params, ∃ q, t.param? c = some q ∧ t.kind? c = some (.param q) ∧
      c ∈ t.childIds x ∧ ρ c = ρ x ++ [.param q.signature] := by
    intro c hc
    have hcx : c ∈ t.childIds x := mem_childIds.2 ⟨n, hn, .inr (.inl hc)⟩
    obtain ⟨q, hq⟩ := hL.param_slot x n hn c hc
    exact ⟨q, param?_eq_some_iff.2 hq, hq, hcx, by rw [hL.child_path x c hcx, ownSteps_of_kind hq]; rfl⟩
  rw [hL.paramOrder_eq hn, List.filter_eq_self.2, List.findSome?_map, findSome?_filterMap]
  · apply findSome?_congr_of_mem
    intro c hc
    obtain ⟨q, hq, hk, hcx, -⟩ := hchildPath c hc
    simp only [hq, Option.map_some, Option.bind_some, Function.comp_apply]
    exact hR.attempt_step method hchild hfuel hcx hk rfl (fun _ h => by cases h) rest values
  · -- every parameter child leads to a route
    intro s hs
    obtain ⟨sig, hsig, rfl⟩ := List.mem_map.1 hs
    obtain ⟨c, hc, hcsig⟩ := List.mem_filterMap.1 hsig
    obtain ⟨q, hq, -, hcx, hpath⟩ := hchildPath c hc
    rw [hq, Option.map_some, Option.some.injEq] at hcsig
    rw [← hcsig, ← hpath]
    exact hR.leadsTo_child hcx

omit hK in
/-- The wildcard child, tried last as the unfolded search tries the wildcard step. -/
theorem Registry.findSome?_wildcard (rest : List Char) (values : Array String) :
    n.wildcard.toList.findSome?
        (fun c => (t.attempt method fuel ⟨c, rest, values⟩).map fun tr => (ρ tr.node, tr.slot, tr.values)) =
      ([PathStep.wildcard].filter fun s => leadsTo L (ρ x ++ [s])).findSome? fun s =>
        match s.read rest with
        | some (vs, rest') => Unfolded.search L t.paramOrder method f (ρ x ++ [s]) rest' (values ++ vs.toArray)
        | none => none := by
  have hL := hR.labelled
  cases hw : n.wildcard with
  | none => simp [hR.leadsTo_wildcard_eq_false hn hw]
  | some c =>
    have hcx : c ∈ t.childIds x := mem_childIds.2 ⟨n, hn, .inr (.inr hw)⟩
    have hk := hL.wildcard_slot x n hn c hw
    have hpath : ρ c = ρ x ++ [.wildcard] := by
      rw [hL.child_path x c hcx, ownSteps_of_kind hk]
      rfl
    have hlead : leadsTo L (ρ x ++ [.wildcard]) = true := hpath ▸ hR.leadsTo_child hcx
    simp only [Option.toList_some, List.findSome?_singleton, List.filter_cons, hlead, if_true,
      List.filter_nil]
    exact hR.attempt_step method hchild hfuel hcx hk rfl (fun _ h => by cases h) rest values

end Step

section Agreement

variable [Regex.Engine]

/-- The search of the trie from a node agrees with the unfolded search of the log from the node's
path, read by root paths: compressed literal text is read one character at a time, where nothing
else can be tried. The induction is on the fuel of the search, which bounds the depth below the
node. -/
theorem Registry.searchAgrees (hR : Registry t ρ L) (method : String) {K : Nat}
    (hK : ∀ e ∈ L, e.route.rootPath.length ≤ K) :
    ∀ fuel x, x < t.nodes.size → t.weight x < fuel → SearchAgrees t ρ L method K fuel x := by
  have hL := hR.labelled
  intro fuel
  induction fuel with
  | zero => intro x _ hw; omega
  | succ fuel ih =>
    intro x hx hw rest values fuel' hfuel
    obtain ⟨n, hn⟩ := node?_of_lt hx
    have hchild : ∀ c ∈ t.childIds x, SearchAgrees t ρ L method K fuel c := fun c hc =>
      ih c (hL.child_lt x c hc) (by have := hL.weight_lt_of_child hc; omega)
    -- the unfolded search has fuel left at a node: its path is no longer than the routes
    have hlen : (ρ x).length ≤ K := by
      by_cases hroot : x = rootId
      · rw [hroot, hL.root_path]
        exact Nat.zero_le K
      · obtain ⟨e, he, hpre⟩ := hR.covered x hx hroot
        exact hpre.length_le.trans (hK e he)
    obtain ⟨f, rfl⟩ : ∃ f, fuel' = f + 1 := ⟨fuel' - 1, by omega⟩
    have hans : t.answers x method = Unfolded.answers L (ρ x) method := hR.answers_eq hx method
    rw [search_succ, Unfolded.search_succ, hans]
    cases hA : (if rest.isEmpty then Unfolded.answers L (ρ x) method else none) with
    | some slot => rfl
    | none =>
      dsimp only
      rw [List.map_findSome?]
      simp only [childrenAt, hn, children, Function.comp_def, Unfolded.next, List.filter_append,
        List.findSome?_append]
      rw [hR.findSome?_params hn method hchild hfuel, hR.findSome?_wildcard hn method hchild hfuel]
      congr 2
      -- the literal child keyed by the next character, if any
      cases rest with
      | nil => rfl
      | cons k r =>
        cases hlook : n.literals.lookup k with
        | none =>
          simp only [hlook, List.findSome?_nil, List.head?_cons, Option.toList_some, List.map_cons,
            List.map_nil, List.filter_cons, hR.leadsTo_char_eq_false hn hlook, Bool.false_eq_true,
            if_false, List.filter_nil]
        | some c =>
          simp only [hlook]
          exact hR.findSome?_literal hn method hK hchild hfuel hlook values

/-- Walking a trie from the root agrees with the unfolded search of its log from the empty path,
read by root paths. -/
theorem Registry.resolve_unfolded (hR : Registry t ρ L) (method : String) {path : String}
    {rest : List Char} (hpath : path.toList = '/' :: rest) {K : Nat}
    (hK : ∀ e ∈ L, e.route.rootPath.length ≤ K) :
    (t.resolve method path).map (fun tr => (ρ tr.node, tr.slot, tr.values)) =
      Unfolded.search L t.paramOrder method (K + 1) [] rest #[] := by
  have hL := hR.labelled
  rw [hL.resolve_search method hpath (Nat.lt_succ_self _)]
  have hagree := hR.searchAgrees method hK (t.nodes.size + 1) rootId hL.root_lt
    (Nat.lt_succ_of_le (weight_le t rootId)) rest #[] (K + 1) (by rw [hL.root_path]; omega)
  rwa [hL.root_path] at hagree

end Agreement

end Registry

end Trie

end Routing
