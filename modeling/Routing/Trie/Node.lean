import Routing.Regex.Match
import Routing.Dispatch.HandlerTable
/-!
# Trie nodes

The routing trie keeps its nodes in an arena: a node's id is its position, ids are given in
creation order, and the root, a literal node `/`, has id 0. A node is literal text, a parameter
span or a wildcard. It has literal children keyed by their first character, parameter children in
priority order, at most one wildcard child, and a handler table once a route ends at it.

Parameter siblings are ordered by `ParamNode.sortsAfter`: an unconstrained span after a
constrained one, a span without a literal suffix after one with a suffix, and among suffixed spans
one whose suffix ends the other's longer suffix after that one.
-/

namespace Routing

open Routing.Regex

/-- A node id: the node's position in the arena. -/
abbrev NodeId := Nat

/-- The id of the root. -/
def rootId : NodeId := 0

/-- A parameter span's regex, as text and read. -/
structure Constraint where
  source : String
  regex : Pattern

/-- A parameter node. Spans with the same regex text share one node, which keeps each span's
template text once, in order of insertion. -/
structure ParamNode where
  constraint : Option Constraint
  suffix : Option String
  sources : List String

namespace ParamNode

/-- The node's signature (`Parametric::signature`): its regex text, if it has a regex. Siblings
never share one. -/
def signature (p : ParamNode) : Option String := p.constraint.map (·.source)

/-- The priority class (`Parametric::rank`): 0 without regex, 1 with a regex and no suffix, 2 with
both. -/
def rank (p : ParamNode) : Nat :=
  match p.constraint, p.suffix with
  | none, _ => 0
  | some _, none => 1
  | some _, some _ => 2

/-- Whether `p` is tried after `q` (`Parametric::sorts_after`): a lower class goes after a higher
one, and within a class a suffix goes after a longer suffix that ends with it. -/
def sortsAfter (p q : ParamNode) : Bool :=
  if p.rank != q.rank then p.rank < q.rank
  else match p.suffix, q.suffix with
    | some s, some o => s.length < o.length && s.toList.isSuffixOf o.toList
    | _, _ => false

end ParamNode

/-- What a node matches. -/
inductive NodeKind where
  /-- Literal text, never empty. -/
  | literal (text : String)
  | param (p : ParamNode)
  /-- The rest of the path. -/
  | wildcard

/-- A node of the trie. -/
structure Node (α : Type) where
  kind : NodeKind
  /-- Literal children, keyed by the first character of their text. -/
  literals : List (Char × NodeId) := []
  /-- Parameter children, in priority order. -/
  params : List NodeId := []
  wildcard : Option NodeId := none
  handlers : Option (HandlerTable α) := none

/-- The routing trie: an arena of nodes. -/
structure Trie (α : Type) where
  nodes : Array (Node α)

namespace Trie

variable {α : Type}

/-- The trie holding only the root. -/
def empty : Trie α := ⟨#[{ kind := .literal "/" }]⟩

/-- The node with an id, if there is one. -/
def node? (t : Trie α) (id : NodeId) : Option (Node α) := t.nodes[id]?

/-- The literal text of a node, empty for other nodes. -/
def text (t : Trie α) (id : NodeId) : String :=
  match t.node? id with
  | some { kind := .literal s, .. } => s
  | _ => ""

/-- The parameter data of a node, if it is a parameter node. -/
def param? (t : Trie α) (id : NodeId) : Option ParamNode :=
  match t.node? id with
  | some { kind := .param p, .. } => some p
  | _ => none

/-- Adds a node; answers the trie and the new node's id. -/
def push (t : Trie α) (n : Node α) : Trie α × NodeId :=
  (⟨t.nodes.push n⟩, t.nodes.size)

/-- Changes the node with an id. -/
def modify (t : Trie α) (id : NodeId) (f : Node α → Node α) : Trie α :=
  ⟨t.nodes.modify id f⟩

/-- The handlers a node holds for a method and slot (`Trie::handlers`); none when the node or entry
is missing. -/
def handlers (t : Trie α) (id : NodeId) (method : String) (slot : MethodSlot) : List (Handler α) :=
  match t.node? id with
  | some n =>
    match n.handlers with
    | some table => (table.handlersAt method slot).getD []
    | none => []
  | none => []

@[simp] theorem size_push (t : Trie α) (n : Node α) : (t.push n).1.nodes.size = t.nodes.size + 1 := by
  simp [push]

@[simp] theorem push_id (t : Trie α) (n : Node α) : (t.push n).2 = t.nodes.size := rfl

/-- Adding a node keeps every existing node. -/
theorem node?_push_of_lt (t : Trie α) (n : Node α) (id : NodeId) (h : id < t.nodes.size) :
    (t.push n).1.node? id = t.node? id := by
  simp [push, node?, Array.getElem?_push, Nat.ne_of_lt h]

theorem node?_push_self (t : Trie α) (n : Node α) : (t.push n).1.node? t.nodes.size = some n := by
  simp [push, node?]

@[simp] theorem size_modify (t : Trie α) (id : NodeId) (f : Node α → Node α) :
    (t.modify id f).nodes.size = t.nodes.size := by
  simp [modify]

/-- Changing one node keeps every other. -/
theorem node?_modify_ne (t : Trie α) (id id' : NodeId) (f : Node α → Node α) (h : id ≠ id') :
    (t.modify id f).node? id' = t.node? id' := by
  simp [modify, node?, Array.getElem?_modify, h]

theorem node?_modify_self (t : Trie α) (id : NodeId) (f : Node α → Node α) :
    (t.modify id f).node? id = (t.node? id).map f := by
  simp [modify, node?, Array.getElem?_modify]

end Trie

end Routing
