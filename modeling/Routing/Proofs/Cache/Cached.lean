import Routing.Proofs.Cache.Recency
import Routing.Cache.Cached
/-!
# A cached router answers as its router

A cached router is a fixed router with a cache of resolutions keyed by the method and the path as
asked. Every state that lookups reach from `CachedRouter.new router capacity` is `Faithful`: the
router is the one it started with, the cache is coherent with capacity `max capacity 1`, and every
cached key is one that no literal route answers and whose resolution is the cached one. From one
lookup on a faithful state (`Faithful.lookup`) follows, for every sequence of lookups, that each
answers as the router's own lookup, from the cache exactly when its key is cached and then with
the cached resolution (`lookups_agree_with_router`).
-/

namespace Routing

/-- The derived comparison of cache keys compares both fields. -/
theorem CacheKey.beq_eq (a b : CacheKey) : (a == b) = (a.method == b.method && a.path == b.path) := rfl

instance : LawfulBEq CacheKey where
  eq_of_beq {a b} h := by
    obtain ⟨m, p⟩ := a
    obtain ⟨m', p'⟩ := b
    simp only [CacheKey.beq_eq, Bool.and_eq_true, beq_iff_eq] at h
    rw [h.1, h.2]
  rfl {a} := by simp [CacheKey.beq_eq]

namespace Router

variable {α : Type} {r : Router α} [Regex.Engine]

/-- What a literal route matches is the lookup's match. -/
theorem lookup_of_lookupLiteral {method path : String} {m : Match α}
    (h : r.lookupLiteral method path = some m) : r.lookup method path = some m := by
  obtain ⟨res, hres, hm⟩ := Option.bind_eq_some_iff.1 h
  simp only [lookup, resolve, hres, Option.bind_some, hm]

end Router

namespace CachedRouter

variable {α : Type}

section Lookups

variable [Regex.Engine]

/-- The cached routers a sequence of lookups reaches from `CachedRouter.new router capacity`. -/
inductive Reachable (router : Router α) (capacity : Nat) : CachedRouter α → Prop
  | new : Reachable router capacity (CachedRouter.new router capacity)
  | lookup {c : CachedRouter α} (method path : String) :
      Reachable router capacity c → Reachable router capacity (c.lookup method path).2.2

/-- A cached router that answers as `router`: the cache is coherent with capacity
`max capacity 1`, and each cached key is one no literal route answers, cached with its
resolution. -/
structure Faithful (router : Router α) (capacity : Nat) (c : CachedRouter α) : Prop where
  router_eq : c.router = router
  coherent : c.cache.Coherent
  capacity_eq : c.cache.capacity = max capacity 1
  cached : ∀ e ∈ c.cache.entries, router.lookupLiteral e.key.method e.key.path = none ∧
    router.resolve e.key.method e.key.path = some e.value

variable {router : Router α} {capacity : Nat} {c : CachedRouter α}

theorem faithful_new : Faithful router capacity (CachedRouter.new router capacity) where
  router_eq := rfl
  coherent := LruCache.new_coherent capacity
  capacity_eq := rfl
  cached _ he := absurd he List.not_mem_nil

/-- A cache read keeps a cached router faithful. -/
theorem Faithful.get (hf : Faithful router capacity c) (key : CacheKey) :
    Faithful router capacity { c with cache := (c.cache.get key).2 } where
  router_eq := hf.router_eq
  coherent := (hf.coherent.get key).1
  capacity_eq := (LruCache.capacity_step c.cache (.get key)).trans hf.capacity_eq
  cached e he := by
    obtain ⟨e₀, he₀, hkey, hval⟩ := LruCache.mem_get_entries he
    rw [hkey, hval]
    exact hf.cached e₀ he₀

/-- Caching the resolution of a key that no literal route answers keeps a cached router
faithful. -/
theorem Faithful.set (hf : Faithful router capacity c) {method path : String} {res : Resolution}
    (hlit : router.lookupLiteral method path = none) (hres : router.resolve method path = some res) :
    Faithful router capacity { c with cache := c.cache.set ⟨method, path⟩ res } where
  router_eq := hf.router_eq
  coherent := (hf.coherent.set _ res).1
  capacity_eq := (LruCache.capacity_step c.cache (.set ⟨method, path⟩ res)).trans hf.capacity_eq
  cached e he := by
    rcases LruCache.mem_set_entries he with ⟨hkey, hval⟩ | he
    · rw [hkey, hval]
      exact ⟨hlit, hres⟩
    · exact hf.cached e he

/-- One lookup on a faithful cached router answers as the router's lookup, from the cache exactly
when its key is cached and then with the cached resolution, and leaves a faithful cached
router. -/
theorem Faithful.lookup (hf : Faithful router capacity c) (method path : String) :
    (c.lookup method path).1 = router.lookup method path ∧
      ((c.lookup method path).2.1 = .hit ↔ ∃ e ∈ c.cache.entries, e.key = ⟨method, path⟩) ∧
      (∀ e ∈ c.cache.entries, e.key = ⟨method, path⟩ →
        (c.lookup method path).1 = router.toMatch e.value) ∧
      Faithful router capacity (c.lookup method path).2.2 := by
  have hcoh := hf.coherent
  have hcached := hf.cached
  have hrouter := hf.router_eq
  subst hrouter
  -- a cached key is no literal route's, and its entry holds the key's resolution
  have hentry : ∀ e ∈ c.cache.entries, e.key = ⟨method, path⟩ →
      c.router.lookupLiteral method path = none ∧ c.router.resolve method path = some e.value := by
    intro e he hkey
    have := hcached e he
    rwa [hkey] at this
  cases hlit : c.router.lookupLiteral method path with
  | some m =>
    -- a literal route answers, and the cache is left alone
    have hnot : ¬∃ e ∈ c.cache.entries, e.key = ⟨method, path⟩ := by
      rintro ⟨e, he, hkey⟩
      rw [(hentry e he hkey).1] at hlit
      cases hlit
    have hlook : c.lookup method path = (some m, .literal, c) := by simp only [lookup, hlit]
    rw [hlook]
    exact ⟨(Router.lookup_of_lookupLiteral hlit).symm, iff_of_false (by simp) hnot,
      fun e he hkey => absurd ⟨e, he, hkey⟩ hnot, hf⟩
  | none =>
    cases hget : c.cache.get ⟨method, path⟩ with
    | mk found cache =>
      have hf' : Faithful c.router capacity { c with cache } := by
        have := hf.get ⟨method, path⟩
        rwa [hget] at this
      cases found with
      | some res =>
        -- a hit: the cached resolution is the key's
        obtain ⟨e, he, hkey, rfl⟩ := hcoh.get_fst_eq_some.1 (by rw [hget])
        have hres := (hentry e he hkey).2
        have hlook : c.lookup method path = (c.router.toMatch e.value, .hit, { c with cache }) := by
          simp only [lookup, hlit, hget]
        rw [hlook]
        refine ⟨by simp [Router.lookup, hres], iff_of_true rfl ⟨e, he, hkey⟩,
          fun e' he' hkey' => ?_, hf'⟩
        rw [← Option.some.inj ((hentry e' he' hkey').2.symm.trans hres)]
      | none =>
        -- a miss: no entry has the key, and the resolution is cached when there is one
        have hmiss : ¬∃ e ∈ c.cache.entries, e.key = ⟨method, path⟩ := by
          rintro ⟨e, he, hkey⟩
          have := hcoh.get_fst_eq_some.2 ⟨e, he, hkey, rfl⟩
          rw [hget] at this
          cases this
        cases hres : c.router.resolve method path with
        | some res =>
          have hlook : c.lookup method path = (c.router.toMatch res, .resolved,
              { c with cache := cache.set ⟨method, path⟩ res }) := by
            simp only [lookup, hlit, hget, hres]
          rw [hlook]
          exact ⟨by simp [Router.lookup, hres], iff_of_false (by simp) hmiss,
            fun e he hkey => absurd ⟨e, he, hkey⟩ hmiss, hf'.set hlit hres⟩
        | none =>
          have hlook : c.lookup method path = (none, .resolved, { c with cache }) := by
            simp only [lookup, hlit, hget, hres]
          rw [hlook]
          exact ⟨by simp [Router.lookup, hres], iff_of_false (by simp) hmiss,
            fun e he hkey => absurd ⟨e, he, hkey⟩ hmiss, hf'⟩

theorem Reachable.faithful (h : Reachable router capacity c) : Faithful router capacity c := by
  induction h with
  | new => exact faithful_new
  | lookup method path _ ih => exact (ih.lookup method path).2.2.2

/-- After any sequence of lookups on `CachedRouter.new router capacity`, the next lookup answers as
`router.lookup`. It is answered from the cache exactly when its key, the method and the path as
asked, is cached, and then with the match of the cached resolution. The cache holds at most
`max capacity 1` resolutions, each under a key that no literal route answers, and each the
router's resolution of its key. -/
theorem lookups_agree_with_router (h : Reachable router capacity c) (method path : String) :
    (c.lookup method path).1 = router.lookup method path ∧
      ((c.lookup method path).2.1 = .hit ↔ ∃ e ∈ c.cache.entries, e.key = ⟨method, path⟩) ∧
      (∀ e ∈ c.cache.entries, e.key = ⟨method, path⟩ →
        (c.lookup method path).1 = router.toMatch e.value) ∧
      c.cached ≤ max capacity 1 ∧
      ∀ e ∈ c.cache.entries, router.lookupLiteral e.key.method e.key.path = none ∧
        router.resolve e.key.method e.key.path = some e.value := by
  have hf := h.faithful
  obtain ⟨hfound, hhit, hstored, -⟩ := hf.lookup method path
  exact ⟨hfound, hhit, hstored, hf.capacity_eq ▸ hf.coherent.size_le, hf.cached⟩

end Lookups

/-- The second lookup of a path with a parameter, after a first one that cached it. -/
theorem second_lookup_agrees :
    let router := ((Router.new {} : Router String).add "GET" "/users/:id" "user").1
    let c := ((CachedRouter.new router 2).lookup "GET" "/users/42").2.2
    Reachable router 2 c ∧
      ((c.lookup "GET" "/users/42").1 = router.lookup "GET" "/users/42" ∧
      ((c.lookup "GET" "/users/42").2.1 = .hit ↔
        ∃ e ∈ c.cache.entries, e.key = ⟨"GET", "/users/42"⟩) ∧
      (∀ e ∈ c.cache.entries, e.key = ⟨"GET", "/users/42"⟩ →
        (c.lookup "GET" "/users/42").1 = router.toMatch e.value) ∧
      c.cached ≤ max 2 1 ∧
      ∀ e ∈ c.cache.entries, router.lookupLiteral e.key.method e.key.path = none ∧
        router.resolve e.key.method e.key.path = some e.value) :=
  ⟨.lookup _ _ .new, lookups_agree_with_router (.lookup _ _ .new) _ _⟩

end CachedRouter

end Routing
