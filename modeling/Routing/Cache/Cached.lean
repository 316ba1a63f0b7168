import Routing.Router.Lookup
import Routing.Cache.Lru
/-!
# Cached routers

A cached router is a fixed router with a cache of resolutions in front of it, keyed by the
method and the path as asked (before normalisation). A lookup first asks the literal routes, which
are never cached; then the cache; and on a miss it resolves the path and caches the resolution
when there is one.

A match taken from the cache shares its parameter values with every earlier match that came from
the same cache entry. `CachedRouter.replay` runs a sequence of lookups and reports, for each, the
match, the cache size after it, and, when the match has values and an earlier lookup of the same
key matched, whether it shares its values with the latest such match, which is exactly when it came
from the cache.
-/

namespace Routing

/-- The key of a cached resolution: the method and the path as asked. -/
structure CacheKey where
  method : String
  path : String
deriving Repr, DecidableEq, BEq

/-- Where a lookup's answer came from. -/
inductive CacheOutcome where
  /-- The literal routes answered. -/
  | literal
  /-- A cached resolution answered. -/
  | hit
  /-- The path was resolved. -/
  | resolved
deriving Repr, DecidableEq

/-- A router with a cache of resolutions. -/
structure CachedRouter (α : Type) where
  router : Router α
  cache : LruCache CacheKey Resolution

namespace CachedRouter

variable {α : Type} [Regex.Engine]

/-- A cached router with a cache of the given capacity (`CachedRouter::with_config`). -/
def new (router : Router α) (capacity : Nat) : CachedRouter α :=
  { router, cache := .new capacity }

/-- The number of cached resolutions (`CachedRouter::cached`). -/
def cached (c : CachedRouter α) : Nat := c.cache.size

/-- Looks up a method and a path (`CachedRouter::lookup`); answers the match, where it came from,
and the router after. -/
def lookup (c : CachedRouter α) (method path : String) :
    Option (Match α) × CacheOutcome × CachedRouter α :=
  match c.router.lookupLiteral method path with
  | some m => (some m, .literal, c)
  | none =>
    let key : CacheKey := { method, path }
    match c.cache.get key with
    | (some res, cache) => (c.router.toMatch res, .hit, { c with cache })
    | (none, cache) =>
      let c := { c with cache }
      match c.router.resolve method path with
      | some res => (c.router.toMatch res, .resolved, { c with cache := c.cache.set key res })
      | none => (none, .resolved, c)

/-- What one lookup of a sequence reports. -/
structure LookupReport (α : Type) where
  found : Option (Match α)
  cached : Nat
  /-- Whether the match shares its values with the latest earlier match of the same key; `none`
  when the match has no values or no earlier lookup of the key matched. -/
  shared : Option Bool

/-- Runs lookups in order. `matched` lists the keys that matched so far. -/
def replayFrom (c : CachedRouter α) (matched : List CacheKey) :
    List (String × String) → List (LookupReport α)
  | [] => []
  | (method, path) :: rest =>
    let (found, outcome, c) := c.lookup method path
    let key : CacheKey := { method, path }
    let shared := match found with
      | some m => if m.values.isEmpty || !matched.contains key then none else some (outcome == .hit)
      | none => none
    let matched := if found.isSome then key :: matched else matched
    { found, cached := c.cached, shared } :: c.replayFrom matched rest

/-- Runs lookups in order, from a cache with no entries. -/
def replay (c : CachedRouter α) (lookups : List (String × String)) : List (LookupReport α) :=
  c.replayFrom [] lookups

end CachedRouter

end Routing
