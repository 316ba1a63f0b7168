import Routing.Trie.Walk
/-!
# The walk as a recursive search

`Trie.search` is the walk of `Trie.resolve` written as a depth-first search: at a node entered
with the path `rest` left, it answers when the path is read and the node answers the method, and
otherwise it searches the children in priority order, each entered from the same place and with
the same values, and takes the first answer. The recursion depth is bounded by the number of
nodes, since a search only goes down the tree.
-/

namespace Routing

namespace Trie

variable {α : Type} [Regex.Engine]

/-- Searches from a node entered with the path `rest` left and the values `values`. -/
def search (t : Trie α) (method : String) : Nat → NodeId → List Char → Array String → Option Traversal
  | 0, _, _, _ => none
  | fuel + 1, id, rest, values =>
    match (if rest.isEmpty then t.answers id method else none) with
    | some slot => some { node := id, slot, values }
    | none =>
      (t.childrenAt id rest).findSome? fun child =>
        match t.enter child rest values with
        | some (rest', values') => t.search method fuel child rest' values'
        | none => none

/-- The node that answers a method and a path, found by the recursive search from the root. -/
def find (t : Trie α) (method path : String) : Option Traversal :=
  match path.toList with
  | '/' :: rest => t.search method (t.nodes.size + 1) rootId rest #[]
  | _ => none

end Trie

end Routing
