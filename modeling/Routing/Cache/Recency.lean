import Routing.Cache.Lru
/-!
# Caches as recency lists

A cache's contents seen as a list of distinct keys with their values, the most recently used
first. On such a list, reading a present key moves it to the front; writing a present key
replaces its value and moves it to the front; writing a new key into a full list drops the last
entry and puts the new one in front. `LruCache.toRecency` reads the list off a cache by the time
each entry was last used.
-/

namespace Routing

/-- A recency list with the most entries it may hold. -/
structure RecencyList (κ ν : Type) where
  capacity : Nat
  items : List (κ × ν)

namespace RecencyList

variable {κ ν : Type} [BEq κ]

/-- Reads a key, moving it to the front when present. -/
def get (l : RecencyList κ ν) (k : κ) : Option ν × RecencyList κ ν :=
  match l.items.find? (·.1 == k) with
  | some (_, v) => (some v, { l with items := (k, v) :: l.items.filter (!·.1 == k) })
  | none => (none, l)

/-- Writes a key. -/
def set (l : RecencyList κ ν) (k : κ) (v : ν) : RecencyList κ ν :=
  if l.items.any (·.1 == k) then { l with items := (k, v) :: l.items.filter (!·.1 == k) }
  else if l.items.length ≥ l.capacity then { l with items := (k, v) :: l.items.dropLast }
  else { l with items := (k, v) :: l.items }

end RecencyList

/-- The recency list of a cache: its entries by last use, the latest first. -/
def LruCache.toRecency {κ ν : Type} (c : LruCache κ ν) : RecencyList κ ν :=
  { capacity := c.capacity
    items := ((c.entries.mergeSort fun a b => decide (b.usedAt ≤ a.usedAt)).map fun e => (e.key, e.value)) }

end Routing
