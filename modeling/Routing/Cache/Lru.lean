/-!
# Least-recently-used caches

An `LruCache` holds at most `capacity` entries (a capacity of 0 holds one). Every `get` and `set`
advances a tick counter (`next_tick`). Each entry remembers the tick of its last read or write,
and a second map, `order`, files each key under that tick, the smallest tick first, so the entry
to evict is the one under the first tick (`evict_oldest`). Reading a present key re-files it under
the new tick; writing a present key replaces its value and re-files it; writing a new key into a
full cache first evicts the key under the first tick.

The tick is a natural number, so it never wraps.
-/

namespace Routing

/-- A cache entry: key, value, and the tick of its last use. -/
structure LruEntry (κ ν : Type) where
  key : κ
  value : ν
  usedAt : Nat

/-! ## Keys filed by tick -/

namespace TickOrder

variable {κ : Type}

/-- Files a key under a tick, keeping ticks in increasing order and replacing what the tick held
(`BTreeMap::insert`). -/
def insertAt : List (Nat × κ) → Nat → κ → List (Nat × κ)
  | [], t, k => [(t, k)]
  | (t', k') :: rest, t, k =>
    if t < t' then (t, k) :: (t', k') :: rest
    else if t = t' then (t, k) :: rest
    else (t', k') :: insertAt rest t k

/-- Takes a tick out: the key it held, if any, and the ticks left (`BTreeMap::remove`). -/
def removeAt : List (Nat × κ) → Nat → Option κ × List (Nat × κ)
  | [], _ => (none, [])
  | (t', k') :: rest, t =>
    if t' = t then (some k', rest)
    else
      let (found, rest') := removeAt rest t
      (found, (t', k') :: rest')

end TickOrder

/-- A cache keeping the most recently used entries (`LruCache`). -/
structure LruCache (κ ν : Type) where
  capacity : Nat
  /-- The entries, one per key. -/
  entries : List (LruEntry κ ν) := []
  /-- Every key in use under the tick of its last use, the smallest tick first. -/
  order : List (Nat × κ) := []
  clock : Nat := 0

namespace LruCache

open TickOrder

variable {κ ν : Type} [BEq κ]

/-- An empty cache; a capacity of 0 is read as 1 (`LruCache::new`). -/
def new (capacity : Nat) : LruCache κ ν := { capacity := max capacity 1 }

/-- The number of entries. -/
def size (c : LruCache κ ν) : Nat := c.entries.length

/-- Reads a key (`LruCache::get`): the tick advances in any case, and a present key is re-filed
under it when the order holds its old tick. -/
def get (c : LruCache κ ν) (k : κ) : Option ν × LruCache κ ν :=
  let now := c.clock + 1
  match c.entries.find? (·.key == k) with
  | some e =>
    let order := match removeAt c.order e.usedAt with
      | (some key, rest) => insertAt rest now key
      | (none, rest) => rest
    (some e.value, { c with
      clock := now
      entries := c.entries.map fun e' => if e'.key == k then { e' with usedAt := now } else e'
      order })
  | none => (none, { c with clock := now })

/-- Drops the key filed under the first tick, and its entry (`evict_oldest`); an empty order
drops nothing. -/
def evictOldest (c : LruCache κ ν) : LruCache κ ν :=
  match c.order with
  | [] => c
  | (_, key) :: rest => { c with order := rest, entries := c.entries.filter fun e => !(e.key == key) }

/-- Writes a key (`LruCache::set`). -/
def set (c : LruCache κ ν) (k : κ) (v : ν) : LruCache κ ν :=
  let now := c.clock + 1
  match c.entries.find? (·.key == k) with
  | some e =>
    { c with
      clock := now
      entries := c.entries.map fun e' => if e'.key == k then { e' with value := v, usedAt := now } else e'
      order := insertAt (removeAt c.order e.usedAt).2 now k }
  | none =>
    let c := if c.entries.length ≥ c.capacity then c.evictOldest else c
    { c with
      clock := now
      order := insertAt c.order now k
      entries := c.entries ++ [{ key := k, value := v, usedAt := now }] }

end LruCache

end Routing
