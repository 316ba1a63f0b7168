import Routing.Path.Normalize
import Routing.Template.Compile
import Routing.Trie.Insert
/-!
# Routers

A router holds a configuration, the routing trie, and the literal routes: each template without
parameters or wildcard, by the one path it answers, with the node where it ends.

`Router.add` normalises the template, compiles it, and inserts the route, changing the router in
place: it answers the router it leaves and whether the addition succeeded. An optional template
is added as its two variants, the one with the parameter first; the first refused variant stops
the addition, and what the variants before it added stays. A refused template that is not
optional leaves the router as it was, since every regex of a route is read before the trie
changes.
-/

namespace Routing

/-- A router of handlers of type `α`. -/
structure Router (α : Type) where
  config : Config
  trie : Trie α := .empty
  /-- Literal routes: the path each answers and the node where it ends. -/
  literalRoutes : List (String × NodeId) := []

namespace Router

variable {α : Type}

/-- The router with no routes (`Router::with_config`). -/
def new (config : Config) : Router α := { config }

/-- Records the node of a literal route, replacing an earlier record of the same path. -/
def recordLiteral (r : Router α) (path : String) (node : NodeId) : Router α :=
  { r with literalRoutes :=
      if r.literalRoutes.any (·.1 == path) then
        r.literalRoutes.map fun e => if e.1 == path then (path, node) else e
      else r.literalRoutes ++ [(path, node)] }

/-- Adds a template (`Router::add`): answers the router the addition leaves and whether it
succeeded. `fuel` bounds the expansions of optional templates, each of which makes the template
shorter. -/
def addWithin (r : Router α) (method pattern : String) (value : α) :
    Nat → Router α × Except RouteError Unit
  | 0 => (r, .ok ())
  | fuel + 1 =>
    let p := r.config.normalize pattern
    match Template.compile p with
    | .error e => (r, .error e)
    | .ok (.optional present absent) =>
      match r.addWithin method present value fuel with
      | (r, .ok ()) => r.addWithin method absent value fuel
      | (r, .error e) => (r, .error e)
    | .ok (.route route) =>
      match r.trie.insert method p route value with
      | .error e => (r, .error e)
      | .ok (trie, node) =>
        let r := { r with trie }
        (match route.literalPath with
          | some path => r.recordLiteral path node
          | none => r, .ok ())

/-- Adds a handler for a method under a template: the router the addition leaves, and whether it
succeeded. -/
def add (r : Router α) (method pattern : String) (value : α) : Router α × Except RouteError Unit :=
  r.addWithin method pattern value (pattern.length + 1)

end Router

end Routing
