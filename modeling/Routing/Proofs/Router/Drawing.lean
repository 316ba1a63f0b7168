import Routing.Proofs.Router.Tree
import Routing.Proofs.Trie.Walk
import Routing.Router.Render
/-!
# Drawing the arena

`Router.render` draws the line `<root>` and then one row for every other node. The rows below a
node are, for each child in drawing order, the child's row and then the rows below the child,
indented one step further: by `│  ` below a child that has a later sibling, by blanks below the
last child, whose branch mark is `└─ `. `Trie.rows` lists these rows and `Trie.line` is the text
of one; what `drawChildren` draws is their lines, each followed by a line feed
(`drawChildren_eq_rows`).

The drawing walks down at most one level more than the arena has nodes. Under a labelling by root
paths that is enough: fuel above the number of nodes at or below a node (`weight`) draws the same
rows as any more fuel (`rows_fuel_eq`), so the rows of the drawing follow their recursion with the
same fuel on both sides (`rows_unfold`). They hold every node but the root exactly once
(`drawnBelow_root_perm`): a node drawn below a node lies below one of its children, every such
node is drawn, and no node lies below two children. A node's children are drawn literal children
first, sorted by their text, then the parameter children in their order, then the wildcard child
(`drawKids_spec`).

`Trie.DrawnAsTree` gathers these facts about a drawing, and every router reachable by additions
draws its arena that way (`Router.render_drawnAsTree`).
-/

namespace Routing

namespace Trie

variable {α : Type}

/-- A row of the drawing: the node drawn, the indent before its branch mark, and whether it is
the last child of its parent. -/
structure Row where
  node : NodeId
  indent : String
  last : Bool
deriving DecidableEq, Repr

/-- The children of a node in drawing order; an id that names no node has none. -/
def drawKids (t : Trie α) (id : NodeId) : List NodeId :=
  match t.node? id with
  | some n => t.drawOrder n
  | none => []

/-- What a child adds to the indent of the rows below it. -/
def indentBelow (last : Bool) : String := if last then "   " else "│  "

/-- The rows below a node in the order they are drawn, below the indent `indent`. `fuel` bounds
the depth, as in `drawChildren`. -/
def rows (t : Trie α) : Nat → NodeId → String → List Row
  | 0, _, _ => []
  | fuel + 1, id, indent =>
    (t.drawKids id).zipIdx.flatMap fun p =>
      let last := p.2 + 1 == (t.drawKids id).length
      ⟨p.1, indent, last⟩ :: t.rows fuel p.1 (indent ++ indentBelow last)

/-- The text of a row: the indent, the branch mark, the label and the methods. -/
def line (t : Trie α) (r : Row) : String :=
  r.indent ++ (if r.last then "└─ " else "├─ ") ++ t.label r.node ++ t.methodsNote r.node

/-- The nodes below a node in the order they are drawn. -/
def drawnBelow (t : Trie α) : Nat → NodeId → List NodeId
  | 0, _ => []
  | fuel + 1, id => (t.drawKids id).flatMap fun c => c :: t.drawnBelow fuel c

/-! ## The rows of a drawing -/

theorem join_flatMap {β : Type} (l : List β) (f : β → List String) :
    String.join (l.flatMap f) = String.join (l.map fun b => String.join (f b)) := by
  induction l with
  | nil => rfl
  | cons b l ih => rw [List.flatMap_cons, String.join_append, ih, List.map_cons, String.join_cons]

theorem flatMap_zipIdx_fst {β γ : Type} (l : List β) (g : β → List γ) :
    (l.zipIdx.flatMap fun p => g p.1) = l.flatMap g := by
  rw [← List.flatMap_map, List.zipIdx_map_fst]

/-- What is drawn below a node is the lines of its rows. -/
theorem drawChildren_eq_rows (t : Trie α) : ∀ fuel id indent,
    t.drawChildren fuel id indent = String.join ((t.rows fuel id indent).map fun r => t.line r ++ "\n") := by
  intro fuel
  induction fuel with
  | zero => intro id indent; rfl
  | succ fuel ih =>
    intro id indent
    rw [drawChildren, rows, List.map_flatMap, join_flatMap]
    congr 1
    refine List.map_congr_left fun p _ => ?_
    obtain ⟨c, i⟩ := p
    dsimp only
    rw [List.map_cons, String.join_cons, ← ih]
    simp only [line, indentBelow, String.append_assoc]
    rfl

/-- A node's children in drawing order are its children. -/
theorem drawKids_perm (t : Trie α) (id : NodeId) : (t.drawKids id).Perm (t.childIds id) := by
  unfold drawKids childIds
  cases t.node? id with
  | none => exact .nil
  | some n => exact ((List.mergeSort_perm _ _).append_right _).append_right _

theorem mem_childIds_of_mem_drawKids {t : Trie α} {id c : NodeId} (h : c ∈ t.drawKids id) :
    c ∈ t.childIds id :=
  (t.drawKids_perm id).subset h

/-- The rows below a node draw the nodes `drawnBelow` lists, whatever the indent. -/
theorem nodes_rows (t : Trie α) : ∀ fuel id indent,
    (t.rows fuel id indent).map Row.node = t.drawnBelow fuel id := by
  intro fuel
  induction fuel with
  | zero => intro id indent; rfl
  | succ fuel ih =>
    intro id indent
    rw [rows, drawnBelow, List.map_flatMap]
    conv_rhs => rw [← flatMap_zipIdx_fst]
    refine List.flatMap_congr fun p _ => ?_
    rw [List.map_cons, ih]

/-- A node drawn below `id` lies below one of its children. -/
theorem below_child_of_mem_drawnBelow {t : Trie α} : ∀ {fuel id y},
    y ∈ t.drawnBelow fuel id → ∃ c ∈ t.childIds id, t.Descends c y
  | 0, _, _, h => absurd h List.not_mem_nil
  | fuel + 1, id, y, h => by
    obtain ⟨c, hc, hy⟩ := List.mem_flatMap.1 h
    refine ⟨c, mem_childIds_of_mem_drawKids hc, ?_⟩
    rcases List.mem_cons.1 hy with rfl | hy
    · exact .refl _
    · obtain ⟨d, hd, hdy⟩ := below_child_of_mem_drawnBelow hy
      exact .child hd hdy

/-- A node drawn in a child's block, the child and what is drawn below it, lies below the child. -/
theorem descends_of_mem_block {t : Trie α} {fuel : Nat} {c y : NodeId}
    (h : y ∈ c :: t.drawnBelow fuel c) : t.Descends c y := by
  rcases List.mem_cons.1 h with rfl | h
  · exact .refl _
  · obtain ⟨d, hd, hdy⟩ := below_child_of_mem_drawnBelow h
    exact .child hd hdy

namespace Labelled

variable {t : Trie α} {ρ : NodeId → List PathStep}

/-- A drawing needs no more fuel than there are nodes at or below where it starts: it goes one
level down per call, and a child has fewer nodes below it than its parent. -/
theorem rows_fuel_eq (hL : t.Labelled ρ) : ∀ fuel fuel' x indent, t.weight x < fuel →
    t.weight x < fuel' → t.rows fuel x indent = t.rows fuel' x indent := by
  intro fuel
  induction fuel with
  | zero => intro _ _ _ h; omega
  | succ fuel ih =>
    intro fuel' x indent h h'
    cases fuel' with
    | zero => omega
    | succ fuel' =>
      rw [rows, rows]
      refine List.flatMap_congr fun p hp => ?_
      have hw := hL.weight_lt_of_child (mem_childIds_of_mem_drawKids (List.fst_mem_of_mem_zipIdx hp))
      exact congrArg _ (ih fuel' p.1 _ (by omega) (by omega))

/-- The rows of the drawing follow their recursion with the drawing's own fuel on both sides:
below a node come, for each child in drawing order, its row and then the rows below it. -/
theorem rows_unfold (hL : t.Labelled ρ) (x : NodeId) (indent : String) :
    t.rows (t.nodes.size + 1) x indent = (t.drawKids x).zipIdx.flatMap fun p =>
      let last := p.2 + 1 == (t.drawKids x).length
      ⟨p.1, indent, last⟩ :: t.rows (t.nodes.size + 1) p.1 (indent ++ indentBelow last) := by
  rw [rows]
  refine List.flatMap_congr fun p hp => ?_
  -- a child has fewer nodes below it than the arena has
  have hw := hL.weight_lt_of_child (mem_childIds_of_mem_drawKids (List.fst_mem_of_mem_zipIdx hp))
  have hx := t.weight_le x
  exact congrArg _ (hL.rows_fuel_eq _ _ p.1 _ (by omega) (by omega))

/-- The nodes drawn below a node are drawn once each: each child's block holds nodes below that
child only, and no node lies below two children. -/
theorem drawnBelow_nodup (hL : t.Labelled ρ) : ∀ fuel x, (t.drawnBelow fuel x).Nodup := by
  intro fuel
  induction fuel with
  | zero => intro x; exact List.nodup_nil
  | succ fuel ih =>
    intro x
    rw [drawnBelow, List.nodup_flatMap]
    refine ⟨fun c _ => List.nodup_cons.2 ⟨fun hmem => ?_, ih c⟩, ?_⟩
    · obtain ⟨d, hd, hdc⟩ := below_child_of_mem_drawnBelow hmem
      exact hL.not_descends_of_child hd hdc
    · have hnodup : (t.drawKids x).Nodup :=
        (t.drawKids_perm x).nodup_iff.2 (hL.first_steps x).of_map
      refine hnodup.imp_of_mem fun {a b} ha hb hab y hya hyb => hab ?_
      exact hL.child_eq_of_descends (mem_childIds_of_mem_drawKids ha) (mem_childIds_of_mem_drawKids hb)
        (descends_of_mem_block hya) (descends_of_mem_block hyb)

/-- With fuel above the number of nodes at or below `x`, every node below a child of `x` is drawn
below `x`. -/
theorem mem_drawnBelow (hL : t.Labelled ρ) : ∀ fuel x c y, t.weight x < fuel →
    c ∈ t.childIds x → t.Descends c y → y ∈ t.drawnBelow fuel x := by
  intro fuel
  induction fuel with
  | zero => intro _ _ _ h; omega
  | succ fuel ih =>
    intro x c y h hc hcy
    rw [drawnBelow]
    refine List.mem_flatMap.2 ⟨c, (t.drawKids_perm x).symm.subset hc, ?_⟩
    cases hcy with
    | refl => exact List.mem_cons_self
    | child hd hdy =>
      have hw := hL.weight_lt_of_child hc
      exact List.mem_cons_of_mem _ (ih c _ y (by omega) hd hdy)

/-- The drawing below the root draws every other node of the arena exactly once. -/
theorem drawnBelow_root_perm (hL : t.Labelled ρ) :
    (t.drawnBelow (t.nodes.size + 1) rootId).Perm ((List.range t.nodes.size).erase rootId) := by
  refine (List.perm_ext_iff_of_nodup (hL.drawnBelow_nodup _ _) (List.nodup_range.erase _)).2
    fun y => ?_
  rw [List.nodup_range.mem_erase_iff, List.mem_range]
  constructor
  · intro hy
    obtain ⟨c, hc, hcy⟩ := below_child_of_mem_drawnBelow hy
    refine ⟨fun hroot => hL.not_descends_of_child hc (hroot ▸ hcy), ?_⟩
    exact hL.descends_lt_size hcy (hL.child_lt _ _ hc)
  · rintro ⟨hne, hy⟩
    cases hL.reach y hy with
    | refl => exact absurd rfl hne
    | child hc hcy => exact hL.mem_drawnBelow _ _ _ _ (Nat.lt_succ_of_le (t.weight_le _)) hc hcy

end Labelled

/-! ## Labels and drawing order -/

theorem label_of_literal {t : Trie α} {c : NodeId} {s : String} (h : t.kind? c = some (.literal s)) :
    t.label c = s := by
  obtain ⟨n, hn, hk⟩ := kind?_eq_some.1 h
  simp [label, hn, hk]

theorem label_of_param {t : Trie α} {c : NodeId} {q : ParamNode} (h : t.kind? c = some (.param q)) :
    t.label c = "|".intercalate q.sources := by
  obtain ⟨n, hn, hk⟩ := kind?_eq_some.1 h
  simp [label, hn, hk]

theorem label_of_wildcard {t : Trie α} {c : NodeId} (h : t.kind? c = some .wildcard) :
    t.label c = "*" := by
  obtain ⟨n, hn, hk⟩ := kind?_eq_some.1 h
  simp [label, hn, hk]

/-- Children in drawing order for a node `n`: its literal children sorted by label, each a
literal node labelled by its text, then its parameter children in their order, each labelled by
its spans joined with `|`, then its wildcard child, labelled `*`. -/
def DrawOrdered (t : Trie α) (n : Node α) (kids : List NodeId) : Prop :=
  ∃ lits, kids = lits ++ n.params ++ n.wildcard.toList ∧
    lits.Perm (n.literals.map (·.2)) ∧ lits.Pairwise (fun a b => t.label a ≤ t.label b) ∧
    (∀ c ∈ lits, ∃ s, t.kind? c = some (.literal s) ∧ t.label c = s) ∧
    (∀ c ∈ n.params, ∃ q, t.kind? c = some (.param q) ∧ t.label c = "|".intercalate q.sources) ∧
    (∀ c ∈ n.wildcard, t.kind? c = some .wildcard ∧ t.label c = "*")

/-- Sorting by a text key leaves the list sorted by that key. -/
theorem pairwise_mergeSort_text {β : Type} (f : β → String) (l : List β) :
    (l.mergeSort fun a b => decide (f a ≤ f b)).Pairwise fun a b => f a ≤ f b := by
  have h := @List.pairwise_mergeSort β (fun a b => decide (f a ≤ f b))
    (fun a b c hab hbc => by simp only [decide_eq_true_eq] at *; exact String.le_trans hab hbc)
    (fun a b => by simpa using String.le_total (f a) (f b)) l
  simpa only [decide_eq_true_eq] using h

/-- A node's children are drawn in drawing order: the slots of a labelled trie hold nodes of their
kinds, and a literal node's label is the text the children are sorted by. -/
theorem Labelled.drawKids_spec {t : Trie α} {ρ : NodeId → List PathStep} (hL : t.Labelled ρ)
    {x : NodeId} {n : Node α} (hn : t.node? x = some n) : t.DrawOrdered n (t.drawKids x) := by
  let lits := (n.literals.map (·.2)).mergeSort fun a b => decide (t.text a ≤ t.text b)
  -- a literal child is labelled by its text
  have hlit : ∀ c ∈ lits, ∃ s, t.kind? c = some (.literal s) ∧ t.label c = s ∧ t.text c = s := by
    intro c hc
    obtain ⟨⟨k, c'⟩, hkc, rfl⟩ := List.mem_map.1 ((List.mergeSort_perm _ _).subset hc)
    obtain ⟨s, hs, -⟩ := hL.literal_slot x n hn k c' hkc
    exact ⟨s, hs, label_of_literal hs, text_of_literal hs⟩
  refine ⟨lits, by simp only [drawKids, hn]; rfl, List.mergeSort_perm _ _, ?_,
    fun c hc => ?_, fun c hc => ?_, fun c hc => ?_⟩
  · refine (pairwise_mergeSort_text t.text _).imp_of_mem fun {a b} ha hb hab => ?_
    obtain ⟨s, -, hsa, hta⟩ := hlit a ha
    obtain ⟨s', -, hsb, htb⟩ := hlit b hb
    rwa [hsa, hsb, ← hta, ← htb]
  · obtain ⟨s, hs, hls, -⟩ := hlit c hc
    exact ⟨s, hs, hls⟩
  · obtain ⟨q, hq⟩ := hL.param_slot x n hn c hc
    exact ⟨q, hq, label_of_param hq⟩
  · have hw := hL.wildcard_slot x n hn c hc
    exact ⟨hw, label_of_wildcard hw⟩

/-- A node's methods are drawn, sorted, exactly when it has a handler table. -/
theorem methodsNote_spec (t : Trie α) (x : NodeId) :
    ((t.node? x).bind (·.handlers) = none ∧ t.methodsNote x = "") ∨
      ∃ table, (t.node? x).bind (·.handlers) = some table ∧
        t.methodsNote x = " [" ++ ", ".intercalate table.methods ++ "]" ∧
        table.methods.Pairwise (· ≤ ·) ∧ table.methods.Perm (table.entries.map (·.1)) := by
  unfold methodsNote
  cases (t.node? x).bind (·.handlers) with
  | none => exact .inl ⟨rfl, rfl⟩
  | some table =>
    exact .inr ⟨table, rfl, rfl, pairwise_mergeSort_text id _, List.mergeSort_perm _ _⟩

/-! ## The drawing of a router -/

/-- What a drawing `out` of the arena is: the line `<root>` with the root's methods, then the line
of each row below the root, each followed by a line feed. The rows hold every node but the root
once and follow the pre-order recursion; a node's children come in drawing order; a node's
methods are drawn, sorted, exactly when it has a handler table. -/
structure DrawnAsTree (t : Trie α) (out : String) : Prop where
  lines : out = String.join ((("<root>" ++ t.methodsNote rootId) ::
    (t.rows (t.nodes.size + 1) rootId "").map t.line).map (· ++ "\n"))
  once : ((t.rows (t.nodes.size + 1) rootId "").map Row.node).Perm
    ((List.range t.nodes.size).erase rootId)
  preorder : ∀ x indent, t.rows (t.nodes.size + 1) x indent = (t.drawKids x).zipIdx.flatMap fun p =>
    let last := p.2 + 1 == (t.drawKids x).length
    ⟨p.1, indent, last⟩ :: t.rows (t.nodes.size + 1) p.1 (indent ++ indentBelow last)
  children : ∀ x n, t.node? x = some n → t.DrawOrdered n (t.drawKids x)
  methods : ∀ x, ((t.node? x).bind (·.handlers) = none ∧ t.methodsNote x = "") ∨
    ∃ table, (t.node? x).bind (·.handlers) = some table ∧
      t.methodsNote x = " [" ++ ", ".intercalate table.methods ++ "]" ∧
      table.methods.Pairwise (· ≤ ·) ∧ table.methods.Perm (table.entries.map (·.1))

end Trie

namespace Router

variable {α : Type}

/-- Every router reachable by additions draws its arena as a tree: one line for the root and one
for every other node, each once, in pre-order, each child below its parent in drawing order. -/
theorem render_drawnAsTree {c : Config} {r : Router α} (h : Reachable c r) :
    r.trie.DrawnAsTree r.render := by
  obtain ⟨L, hL, -⟩ := h.builtBy
  obtain ⟨ρ, hR⟩ := hL.registry
  have hlab := hR.labelled
  refine ⟨?_, ?_, hlab.rows_unfold, fun x n hn => hlab.drawKids_spec hn, r.trie.methodsNote_spec⟩
  · rw [Router.render, Trie.drawChildren_eq_rows, List.map_cons, String.join_cons, List.map_map]
    rfl
  · rw [Trie.nodes_rows]
    exact hlab.drawnBelow_root_perm

/-- A router whose two literal routes share a prefix, so that adding the second splits a node,
draws its arena as a tree. -/
theorem static_status_drawnAsTree :
    let r := (((Router.new {} : Router Nat).add "GET" "/static" 0).1.add "POST" "/status" 1).1
    Reachable {} r ∧ r.trie.DrawnAsTree r.render :=
  ⟨.add _ _ _ (.add _ _ _ .new), render_drawnAsTree (.add _ _ _ (.add _ _ _ .new))⟩

end Router

end Routing
