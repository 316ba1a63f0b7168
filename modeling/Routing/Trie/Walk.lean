import Routing.Trie.Node
import Routing.Regex.Engine
/-!
# Walking the trie

`Trie.resolve` finds the node that answers a method and a path, with the parameter values read
on the way. The path must start with `/`. The walk enters the root, and at each node it entered:
when the whole path is read and the node's handler table answers the method (its own entry, else
`ALL`), that is the answer; otherwise the node's children are tried in priority order, each from
the same place in the path: the literal child whose whole text comes next, then the parameter
children in order, then the wildcard. When a child fails, the next one is tried, backtracking to
the place and values the parent had.

Entering a literal node reads its text. A parameter node reads the segment up to the next `/`:
without a regex the segment is one value, possibly empty; with one, the regex engine must find a
match in the segment and its groups are the values, a group that took no part being empty. An
engine that gives up counts as no match. A wildcard reads the rest of the path as one value. The
engine is an instance argument: the walk is the same for every engine.

The walk keeps the children still to try on an explicit stack. Each node is tried at most once per
walk, so the number of nodes bounds the steps.
-/

namespace Routing

/-- A node to try, with the path left to read there and the values read before it. -/
structure Attempt where
  node : NodeId
  rest : List Char
  values : Array String

/-- The answer of a walk: the node, which slot of its handler table answered, and the values. -/
structure Traversal where
  node : NodeId
  slot : MethodSlot
  values : Array String
deriving Repr

namespace Trie

open Regex

variable {α : Type} [Engine]

/-- `Trie::enter`: enters a node with the path `rest` left and the values read so far; `none`
when a parameter regex does not match its segment or the engine gives up on it. -/
def enter (t : Trie α) (id : NodeId) (rest : List Char) (values : Array String) :
    Option (List Char × Array String) :=
  match (t.node? id).map Node.kind with
  | some (NodeKind.literal s) => some (rest.drop s.length, values)
  | some .wildcard => some ([], values.push (String.ofList rest))
  | some (.param p) =>
    let segment := rest.takeWhile (· != '/')
    let after := rest.dropWhile (· != '/')
    match p.constraint with
    | none => some (after, values.push (String.ofList segment))
    | some c =>
      match c.regex.groupValues? (String.ofList segment) with
      | some groups => some (after, values ++ groups.toArray)
      | none => none
  | none => none

/-- The children of a node to try, in priority order, from the path `rest` (`Trie::next_node`): the
literal child whose whole text comes next, the parameter children, and the wildcard child. -/
def children (t : Trie α) (n : Node α) (rest : List Char) : List NodeId :=
  let literal := match rest with
    | c :: _ =>
      match n.literals.lookup c with
      | some id => if (t.text id).toList.isPrefixOf rest then [id] else []
      | none => []
    | [] => []
  literal ++ n.params ++ n.wildcard.toList

/-- The children to try below the node `id` from the path `rest`, in priority order; none when
there is no such node. -/
def childrenAt (t : Trie α) (id : NodeId) (rest : List Char) : List NodeId :=
  match t.node? id with
  | some n => t.children n rest
  | none => []

/-- The slot of a node's handler table that answers a method, if the node has one. -/
def answers (t : Trie α) (id : NodeId) (method : String) : Option MethodSlot :=
  ((t.node? id).bind (·.handlers)).bind (·.resolve method)

/-- Runs the walk on a stack of attempts, the next one first. -/
def walk (t : Trie α) (method : String) : Nat → List Attempt → Option Traversal
  | 0, _ => none
  | _ + 1, [] => none
  | fuel + 1, a :: stack =>
    match t.enter a.node a.rest a.values with
    | none => t.walk method fuel stack
    | some (rest, values) =>
      match (if rest.isEmpty then t.answers a.node method else none) with
      | some slot => some { node := a.node, slot, values }
      | none =>
        let next := (t.childrenAt a.node rest).map fun id => { node := id, rest, values }
        t.walk method fuel (next ++ stack)

/-- The node that answers a method and a path, with its parameter values (`Trie::resolve`). -/
def resolve (t : Trie α) (method : String) (path : String) : Option Traversal :=
  match path.toList with
  | '/' :: _ => t.walk method (t.nodes.size + 1) [{ node := rootId, rest := path.toList, values := #[] }]
  | _ => none

end Trie

end Routing
