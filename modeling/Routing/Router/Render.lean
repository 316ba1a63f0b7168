import Routing.Router.Basic
/-!
# Drawing the trie

`Router.render` draws the trie as a tree, one line per node. The first line is `<root>`; each
other line is the indent, a branch mark (`├─ `, or `└─ ` for a last child), the node's label,
and the sorted methods of its handler table in brackets when it has one. A literal node is
labelled by its text, a parameter node by its spans joined with `|`, the wildcard by `*`. The
children of a node follow it: the literal children sorted by text, the parameter children in
priority order, then the wildcard. A child's children are indented by `│  `, or by blanks below a
last child.
-/

namespace Routing

namespace Trie

variable {α : Type}

/-- The label of a node (`label`). -/
def label (t : Trie α) (id : NodeId) : String :=
  match (t.node? id).map Node.kind with
  | some (NodeKind.literal s) => s
  | some (NodeKind.param p) => "|".intercalate p.sources
  | some NodeKind.wildcard => "*"
  | none => ""

/-- The methods of a node in brackets, after a blank, or nothing when it has no handler table
(`write_methods`). -/
def methodsNote (t : Trie α) (id : NodeId) : String :=
  match (t.node? id).bind (·.handlers) with
  | some table => " [" ++ ", ".intercalate table.methods ++ "]"
  | none => ""

/-- The children of a node in drawing order. -/
def drawOrder (t : Trie α) (n : Node α) : List NodeId :=
  ((n.literals.map (·.2)).mergeSort fun a b => decide (t.text a ≤ t.text b)) ++
    n.params ++ n.wildcard.toList

/-- The lines of the children of a node, below the indent `indent` (`write_children`). `fuel` bounds
the depth. -/
def drawChildren (t : Trie α) : Nat → NodeId → String → String
  | 0, _, _ => ""
  | fuel + 1, id, indent =>
    let kids := match t.node? id with
      | some n => t.drawOrder n
      | none => []
    String.join (kids.zipIdx.map fun (child, i) =>
      let last := i + 1 == kids.length
      let branch := if last then "└─ " else "├─ "
      let extension := if last then "   " else "│  "
      indent ++ branch ++ t.label child ++ t.methodsNote child ++ "\n" ++
        t.drawChildren fuel child (indent ++ extension))

end Trie

/-- Draws a router's trie. -/
def Router.render {α : Type} (r : Router α) : String :=
  "<root>" ++ r.trie.methodsNote rootId ++ "\n" ++ r.trie.drawChildren (r.trie.nodes.size + 1) rootId ""

end Routing
