import Routing.Router.Basic
import Routing.Trie.Walk
import Routing.Text.Percent
/-!
# Looking up a route

`Router.resolve` normalises the path, answers from the literal routes when one of them answers
the method, and walks the trie otherwise; parameter values are then percent-decoded when the
configuration says so. A resolution names the node, the method, the slot that answered and the
values. `Router.toMatch` turns a resolution into a match: the handlers the node holds for that
method and slot, with the values. `Router.lookup` is the two together, and
`Router.lookupLiteral` consults the literal routes only.
-/

namespace Routing

/-- Where a lookup ended: the node, the method asked, the slot that answered, and the values. -/
structure Resolution where
  node : NodeId
  method : String
  slot : MethodSlot
  values : Array String
deriving Repr, DecidableEq

/-- A match: the handlers that answer, in registration order (never empty), and the values. -/
structure Match (α : Type) where
  handlers : List (Handler α)
  values : Array String

namespace Match

variable {α : Type}

/-- The first handler's value (`Match::handler`). -/
def handler? (m : Match α) : Option α := m.handlers.head?.map (·.value)

/-- The value of a parameter, by the first handler's parameter index (`Match::param`). -/
def param? (m : Match α) (name : String) : Option String :=
  (m.handlers.head?.bind fun h => h.params.position? name).bind fun i => m.values[i]?

end Match

namespace Router

variable {α : Type} [Regex.Engine]

/-- The resolution a literal route gives, if its node answers the method
(`Router::resolve_static`). -/
def resolveLiteral (r : Router α) (method path : String) : Option Resolution :=
  (r.literalRoutes.lookup path).bind fun node =>
    (r.trie.answers node method).map fun slot => { node, method, slot, values := #[] }

/-- Resolves a method and a path (`Router::resolve`). -/
def resolve (r : Router α) (method path : String) : Option Resolution :=
  let p := r.config.normalize path
  match r.resolveLiteral method p with
  | some res => some res
  | none =>
    (r.trie.resolve method p).map fun tr =>
      { node := tr.node, method, slot := tr.slot,
        values := if r.config.decodeParams then tr.values.map Text.percentDecode else tr.values }

/-- The match of a resolution: the handlers its node holds for its method and slot
(`Router::to_match`). -/
def toMatch (r : Router α) (res : Resolution) : Option (Match α) :=
  match r.trie.handlers res.node res.method res.slot with
  | [] => none
  | hs => some { handlers := hs, values := res.values }

/-- Looks up a method and a path (`Router::lookup`). -/
def lookup (r : Router α) (method path : String) : Option (Match α) :=
  (r.resolve method path).bind r.toMatch

/-- Looks up a method and a path among the literal routes only (`Router::lookup_static`). -/
def lookupLiteral (r : Router α) (method path : String) : Option (Match α) :=
  (r.resolveLiteral method (r.config.normalize path)).bind r.toMatch

end Router

end Routing
