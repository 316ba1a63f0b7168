import Routing.Trie.Node
import Routing.Template.Token
/-!
# Root paths

The root path of a node is what is read from the root down to it: the characters of the literal
nodes below the root, a parameter node as its signature, and the wildcard. The root path of a
route is read the same way off its tokens. Two routes end at the same node exactly when their root
paths are equal.
-/

namespace Routing

/-- One step of a root path. -/
inductive PathStep where
  | char (c : Char)
  | param (signature : Option String)
  | wildcard
deriving Repr, DecidableEq

/-- The steps a token stands for. -/
def Token.rootPath : Token → List PathStep
  | .text s => s.toList.map .char
  | .param p => [.param p.regex]
  | .wildcard => [.wildcard]

/-- The root path of a route. -/
def Route.rootPath (r : Route) : List PathStep := r.tokens.flatMap Token.rootPath

namespace Trie

variable {α : Type}

/-- The steps a node adds to the root path of its parent. -/
def ownSteps (t : Trie α) (id : NodeId) : List PathStep :=
  match (t.node? id).map Node.kind with
  | some (NodeKind.literal s) => s.toList.map .char
  | some (NodeKind.param p) => [.param p.signature]
  | some NodeKind.wildcard => [.wildcard]
  | none => []

/-- The child ids of a node: literal, parameter and wildcard children. -/
def childIds (t : Trie α) (id : NodeId) : List NodeId :=
  match t.node? id with
  | some n => n.literals.map (·.2) ++ n.params ++ n.wildcard.toList
  | none => []

/-- Every node below `id` with its root path, `above` being the root path of `id`, in pre-order.
`fuel` bounds the depth. -/
def pathsBelow (t : Trie α) : Nat → NodeId → List PathStep → List (NodeId × List PathStep)
  | 0, _, _ => []
  | fuel + 1, id, above =>
    (t.childIds id).flatMap fun c =>
      let here := above ++ t.ownSteps c
      (c, here) :: t.pathsBelow fuel c here

/-- Every node reachable from the root with its root path; the root's is empty. -/
def rootPaths (t : Trie α) : List (NodeId × List PathStep) :=
  (rootId, []) :: t.pathsBelow t.nodes.size rootId []

/-- The root path of a node reachable from the root. -/
def rootPath? (t : Trie α) (id : NodeId) : Option (List PathStep) :=
  t.rootPaths.lookup id

end Trie

end Routing
