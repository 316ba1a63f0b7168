import Mathlib.Data.List.Nodup
import Mathlib.Data.List.Perm.Basic
import Routing.Cache.Recency
/-!
# A cache follows its recency list

`LruCache` keeps its entries, each with the tick of its last use, and files every key under that
tick in a second map, `order`, the smallest tick first. `RecencyList` is the list of keys and
values by recency, the latest first. Every cache built from `LruCache.new` by reads and writes is
`Coherent`: its keys are distinct, the order files exactly the entries, each key under the tick of
its entry (`order_perm`), its ticks strictly increase (`order_sorted`) and none is after the
current tick, the entries fit the capacity and the capacity is at least one. So no two entries
share a tick (`Coherent.times_nodup`), the first tick of the order is that of the entry unused for
longest (`Coherent.oldest`), and the entries sorted by tick are the recency list (`recent_eq`).
Each read and write answers as the list's own and moves the sorted entries as it moves the list
(`Coherent.get`, `Coherent.set`). By induction on the operations, a cache and its recency list
answer every sequence of reads and writes alike (`runs_like_recencyList`).

The tick is a natural number, so the ticks the cache hands out never wrap.
-/

namespace Routing

/-- A read or a write of a cache. -/
inductive CacheOp (κ ν : Type) where
  | get (k : κ)
  | set (k : κ) (v : ν)

namespace CacheOp

variable {σ τ κ ν : Type}

/-- Performs an operation with a state's own read and write; a write answers nothing. -/
def perform (get : σ → κ → Option ν × σ) (set : σ → κ → ν → σ) (s : σ) : CacheOp κ ν → Option ν × σ
  | .get k => get s k
  | .set k v => (none, set s k v)

/-- Performs operations in order: what each answered, and the state they leave. -/
def run (step : σ → CacheOp κ ν → Option ν × σ) (s : σ) : List (CacheOp κ ν) → List (Option ν) × σ
  | [] => ([], s)
  | op :: ops =>
    let (out, s') := step s op
    let (outs, s'') := run step s' ops
    (out :: outs, s'')

/-- Two states related by `R` answer every sequence of operations alike and stay related, when
one step from related states answers alike and keeps them related. -/
theorem run_simulates {stepS : σ → CacheOp κ ν → Option ν × σ}
    {stepT : τ → CacheOp κ ν → Option ν × τ} (R : σ → τ → Prop)
    (hstep : ∀ s t op, R s t → (stepS s op).1 = (stepT t op).1 ∧ R (stepS s op).2 (stepT t op).2) :
    ∀ (ops : List (CacheOp κ ν)) (s : σ) (t : τ), R s t →
      (run stepS s ops).1 = (run stepT t ops).1 ∧ R (run stepS s ops).2 (run stepT t ops).2
  | [], _, _, h => ⟨rfl, h⟩
  | op :: ops, s, t, h => by
    obtain ⟨hout, hR⟩ := hstep s t op h
    obtain ⟨houts, hR'⟩ := run_simulates R hstep ops _ _ hR
    exact ⟨by simp [run, hout, houts], hR'⟩

end CacheOp

/-- One read or write of a cache. -/
def LruCache.step {κ ν : Type} [BEq κ] : LruCache κ ν → CacheOp κ ν → Option ν × LruCache κ ν :=
  CacheOp.perform LruCache.get LruCache.set

/-- One read or write of a recency list. -/
def RecencyList.step {κ ν : Type} [BEq κ] : RecencyList κ ν → CacheOp κ ν → Option ν × RecencyList κ ν :=
  CacheOp.perform RecencyList.get RecencyList.set

/-! ## The tick order -/

namespace TickOrder

variable {κ : Type}

/-- A tick later than every tick filed goes last. -/
theorem insertAt_of_lt {o : List (Nat × κ)} {t : Nat} (h : ∀ p ∈ o, p.1 < t) (k : κ) :
    insertAt o t k = o ++ [(t, k)] := by
  induction o with
  | nil => rfl
  | cons p rest ih =>
    obtain ⟨t', k'⟩ := p
    have hlt : t' < t := h _ List.mem_cons_self
    rw [insertAt, if_neg (by omega), if_neg (by omega), ih fun q hq => h q (List.mem_cons_of_mem _ hq)]
    rfl

/-- Taking out a tick filed once answers its key and leaves the other ticks in their order. -/
theorem removeAt_middle {A B : List (Nat × κ)} {t : Nat} (h : ∀ p ∈ A, p.1 ≠ t) (k : κ) :
    removeAt (A ++ (t, k) :: B) t = (some k, A ++ B) := by
  induction A with
  | nil => simp [removeAt]
  | cons p A ih =>
    obtain ⟨t', k'⟩ := p
    have hne : t' ≠ t := h _ List.mem_cons_self
    simp only [List.cons_append, removeAt, if_neg hne, ih fun q hq => h q (List.mem_cons_of_mem _ hq)]

end TickOrder

namespace LruCache

open TickOrder

variable {κ ν : Type}

/-! ## Entries by last use -/

/-- Entries by last use, the latest first. -/
def recent (es : List (LruEntry κ ν)) : List (LruEntry κ ν) :=
  es.mergeSort fun a b => decide (b.usedAt ≤ a.usedAt)

theorem toRecency_eq (c : LruCache κ ν) :
    c.toRecency = { capacity := c.capacity, items := (recent c.entries).map fun e => (e.key, e.value) } :=
  rfl

theorem recent_perm (es : List (LruEntry κ ν)) : (recent es).Perm es := List.mergeSort_perm _ _

theorem recent_pairwise_le (es : List (LruEntry κ ν)) :
    (recent es).Pairwise fun a b => b.usedAt ≤ a.usedAt := by
  have h : (recent es).Pairwise fun a b => decide (b.usedAt ≤ a.usedAt) = true :=
    List.pairwise_mergeSort (fun a b c hab hbc => by simp only [decide_eq_true_eq] at *; omega)
      (fun a b => by simp only [Bool.or_eq_true, decide_eq_true_eq]; omega) es
  exact h.imp fun hab => by simpa using hab

/-- With distinct times, the entries by last use are strictly latest first. -/
theorem recent_later {es : List (LruEntry κ ν)} (htimes : (es.map (·.usedAt)).Nodup) :
    (recent es).Pairwise fun a b => b.usedAt < a.usedAt := by
  have hne : (recent es).Pairwise fun a b => a.usedAt ≠ b.usedAt :=
    List.pairwise_map.1 (((recent_perm es).map _).nodup_iff.2 htimes)
  exact ((recent_pairwise_le es).and hne).imp fun ⟨hle, hne⟩ => by omega

/-- With distinct times, the entries by last use are the one arrangement of the entries that is
strictly latest first. -/
theorem recent_eq {es l : List (LruEntry κ ν)} (htimes : (es.map (·.usedAt)).Nodup)
    (hperm : l.Perm es) (hlater : l.Pairwise fun a b => b.usedAt < a.usedAt) : recent es = l := by
  refine List.Perm.eq_of_pairwise ?_ (recent_pairwise_le es)
    (hlater.imp Nat.le_of_lt) ((recent_perm es).trans hperm.symm)
  intro a b ha hb hab hba
  exact List.inj_on_of_nodup_map htimes ((recent_perm es).subset ha) (hperm.subset hb) (by omega)

/-- An entry used after every entry of a list, put in front of it, keeps the times distinct. -/
theorem times_nodup_cons {l : List (LruEntry κ ν)} {y : LruEntry κ ν} (htimes : (l.map (·.usedAt)).Nodup)
    (hlater : ∀ x ∈ l, x.usedAt < y.usedAt) : ((y :: l).map (·.usedAt)).Nodup := by
  rw [List.map_cons, List.nodup_cons]
  refine ⟨fun hmem => ?_, htimes⟩
  obtain ⟨x, hx, hxy⟩ := List.mem_map.1 hmem
  exact absurd hxy (Nat.ne_of_lt (hlater x hx))

/-- Dropping the entry used first, which sits between `A` and `B`, drops the last of the entries
by last use. -/
theorem recent_drop_oldest {A B : List (LruEntry κ ν)} {e₀ : LruEntry κ ν}
    (htimes : ((A ++ e₀ :: B).map (·.usedAt)).Nodup) (hmin : ∀ x ∈ A ++ e₀ :: B, e₀.usedAt ≤ x.usedAt) :
    recent (A ++ B) = (recent (A ++ e₀ :: B)).dropLast := by
  have hperm := recent_perm (A ++ e₀ :: B)
  have hsorted := recent_later htimes
  have hne : recent (A ++ e₀ :: B) ≠ [] := fun h => by simpa [h] using hperm.length_eq
  have hsplit := List.dropLast_concat_getLast hne
  -- the last entry by last use is `e₀`: every other was used later
  have hlast : (recent (A ++ e₀ :: B)).getLast hne = e₀ := by
    have hmem : e₀ ∈ recent (A ++ e₀ :: B) := hperm.symm.subset (List.mem_append_right _ List.mem_cons_self)
    rw [← hsplit] at hmem
    rcases List.mem_append.1 hmem with hmem | hmem
    · rw [← hsplit, List.pairwise_append] at hsorted
      have := hsorted.2.2 _ hmem _ List.mem_cons_self
      have := hmin _ (hperm.subset (List.getLast_mem hne))
      omega
    · exact (List.mem_singleton.1 hmem).symm
  have hrest : ((recent (A ++ e₀ :: B)).dropLast).Perm (A ++ B) := by
    have := (List.perm_append_singleton _ _).symm.trans ((hsplit.symm ▸ hperm).trans List.perm_middle)
    rw [hlast] at this
    exact this.cons_inv
  have hsub : (A ++ B).Sublist (A ++ e₀ :: B) := (List.Sublist.refl A).append (List.sublist_cons_self _ _)
  exact recent_eq ((hsub.map _).nodup htimes) hrest (hsorted.sublist (List.dropLast_sublist _))

/-- An entry used after all others, added at the end, comes first by last use. -/
theorem recent_append_fresh {l : List (LruEntry κ ν)} {y : LruEntry κ ν}
    (htimes : (l.map (·.usedAt)).Nodup) (hlater : ∀ x ∈ l, x.usedAt < y.usedAt) :
    recent (l ++ [y]) = y :: recent l := by
  have hperm := List.perm_append_singleton y l
  apply recent_eq ((hperm.map _).nodup_iff.2 (times_nodup_cons htimes hlater))
  · exact ((List.perm_cons y).2 (recent_perm l)).trans hperm.symm
  · exact List.Pairwise.cons (fun x hx => hlater x ((recent_perm l).subset hx)) (recent_later htimes)

/-! ## The invariant -/

/-- The entries' keys, each under the tick of its entry's last use, as the order files them. -/
def filed (es : List (LruEntry κ ν)) : List (Nat × κ) := es.map fun e => (e.usedAt, e.key)

/-- What every cache built by `new`, `get` and `set` satisfies: the entries and the order are in
bijection through their ticks. -/
structure Coherent (c : LruCache κ ν) : Prop where
  keys_nodup : (c.entries.map (·.key)).Nodup
  /-- The order files exactly the entries, each key under the tick of its entry. -/
  order_perm : c.order.Perm (filed c.entries)
  /-- The order's ticks strictly increase. -/
  order_sorted : c.order.Pairwise fun a b => a.1 < b.1
  used_le_clock : ∀ e ∈ c.entries, e.usedAt ≤ c.clock
  size_le : c.entries.length ≤ c.capacity
  capacity_pos : 0 < c.capacity

theorem new_coherent (capacity : Nat) : (LruCache.new capacity : LruCache κ ν).Coherent where
  keys_nodup := List.nodup_nil
  order_perm := List.Perm.nil
  order_sorted := List.Pairwise.nil
  used_le_clock _ h := absurd h List.not_mem_nil
  size_le := Nat.zero_le _
  capacity_pos := Nat.lt_of_lt_of_le Nat.one_pos (Nat.le_max_right _ _)

variable {c : LruCache κ ν}

/-- No two entries were last used at the same tick, since the order files each under its own. -/
theorem Coherent.times_nodup (hc : c.Coherent) : (c.entries.map (·.usedAt)).Nodup := by
  have hticks : (c.order.map (·.1)).Nodup := List.pairwise_map.2 (hc.order_sorted.imp Nat.ne_of_lt)
  have hfiled : (filed c.entries).map (·.1) = c.entries.map (·.usedAt) := by simp [filed]
  rw [← hfiled]
  exact (hc.order_perm.map _).nodup_iff.1 hticks

/-- Every tick filed is at most the current tick. -/
theorem Coherent.order_le_clock (hc : c.Coherent) : ∀ p ∈ c.order, p.1 ≤ c.clock := by
  intro p hp
  obtain ⟨e, he, rfl⟩ := List.mem_map.1 (hc.order_perm.subset hp)
  exact hc.used_le_clock e he

variable [BEq κ]

theorem any_toRecency (c : LruCache κ ν) (k : κ) :
    c.toRecency.items.any (·.1 == k) = c.entries.any (·.key == k) := by
  rw [toRecency_eq, List.any_map]
  exact (recent_perm _).any_eq

variable [LawfulBEq κ]

/-- A cache finds a key as any arrangement of its entries does, when keys are distinct. -/
theorem find?_key_of_perm {l₁ l₂ : List (LruEntry κ ν)} (hkeys : (l₂.map (·.key)).Nodup)
    (h : l₁.Perm l₂) (k : κ) : l₁.find? (·.key == k) = l₂.find? (·.key == k) := by
  cases h₂ : l₂.find? (·.key == k) with
  | none => exact List.find?_eq_none.2 fun x hx => List.find?_eq_none.1 h₂ x (h.subset hx)
  | some e =>
    have he := List.mem_of_find?_eq_some h₂
    have hk : e.key = k := by simpa using List.find?_some h₂
    obtain ⟨e₁, h₁⟩ : ∃ e₁, l₁.find? (·.key == k) = some e₁ :=
      Option.isSome_iff_exists.1 (List.find?_isSome.2 ⟨e, h.symm.subset he, by simp [hk]⟩)
    have hk₁ : e₁.key = k := by simpa using List.find?_some h₁
    rw [h₁, List.inj_on_of_nodup_map hkeys (h.subset (List.mem_of_find?_eq_some h₁)) he
      (hk₁.trans hk.symm)]

/-- The recency list finds a key where the cache does, with the entry's value. -/
theorem Coherent.find?_toRecency (hc : c.Coherent) (k : κ) :
    c.toRecency.items.find? (·.1 == k) = (c.entries.find? (·.key == k)).map fun e => (e.key, e.value) := by
  rw [toRecency_eq, List.find?_map]
  exact congrArg _ (find?_key_of_perm hc.keys_nodup (recent_perm _) k)

/-- A present entry splits the entries into those before and those after it, which are the
entries of the other keys, since keys are distinct. -/
theorem Coherent.split_at (hc : c.Coherent) {e : LruEntry κ ν} (he : e ∈ c.entries) :
    ∃ A B, c.entries = A ++ e :: B ∧ (∀ x ∈ A ++ B, x.key ≠ e.key) ∧
      c.entries.filter (fun x => !(x.key == e.key)) = A ++ B := by
  obtain ⟨A, B, hsplit⟩ := List.append_of_mem he
  have hkeys := hc.keys_nodup
  rw [hsplit, List.map_append, List.map_cons, List.nodup_middle, List.nodup_cons] at hkeys
  have hother : ∀ x ∈ A ++ B, x.key ≠ e.key := fun x hx hx' =>
    hkeys.1 (by rw [← List.map_append]; exact List.mem_map.2 ⟨x, hx, hx'⟩)
  refine ⟨A, B, hsplit, hother, ?_⟩
  rw [hsplit, List.filter_append, List.filter_cons_of_neg (by simp),
    List.filter_eq_self.2 fun x hx => by simp [hother x (List.mem_append_left _ hx)],
    List.filter_eq_self.2 fun x hx => by simp [hother x (List.mem_append_right _ hx)]]

/-- The order files a present entry under its tick: taking that tick out answers the entry's key
and leaves ticks that file the entries of the other keys. -/
theorem Coherent.removeAt_used (hc : c.Coherent) {e : LruEntry κ ν} (he : e ∈ c.entries) :
    ∃ rest, removeAt c.order e.usedAt = (some e.key, rest) ∧ rest.Sublist c.order ∧
      rest.Perm (filed (c.entries.filter fun x => !(x.key == e.key))) := by
  have hmem : (e.usedAt, e.key) ∈ c.order := hc.order_perm.symm.subset (List.mem_map.2 ⟨e, he, rfl⟩)
  obtain ⟨A, B, horder⟩ := List.append_of_mem hmem
  -- the ticks filed before it are smaller, so none is its own
  have hA : ∀ p ∈ A, p.1 ≠ e.usedAt := by
    have hsorted := hc.order_sorted
    rw [horder, List.pairwise_append] at hsorted
    exact fun p hp => Nat.ne_of_lt (hsorted.2.2 p hp _ List.mem_cons_self)
  obtain ⟨A', B', hsplit, -, hfilter⟩ := hc.split_at he
  refine ⟨A ++ B, by rw [horder, removeAt_middle hA], ?_, ?_⟩
  · rw [horder]
    exact (List.Sublist.refl A).append (List.sublist_cons_self _ _)
  · have h₁ : c.order.Perm ((e.usedAt, e.key) :: (A ++ B)) := by
      rw [horder]
      exact List.perm_middle
    have h₂ : (filed c.entries).Perm ((e.usedAt, e.key) :: filed (A' ++ B')) := by
      rw [hsplit]
      simp only [filed, List.map_append, List.map_cons]
      exact List.perm_middle
    rw [hfilter]
    exact (h₁.symm.trans (hc.order_perm.trans h₂)).cons_inv

/-- The first tick of the order is that of an entry `e₀` used no later than any other; the rest
of the order files the entries of the other keys. -/
theorem Coherent.oldest (hc : c.Coherent) {t₀ : Nat} {k₀ : κ} {rest : List (Nat × κ)}
    (horder : c.order = (t₀, k₀) :: rest) :
    ∃ A e₀ B, c.entries = A ++ e₀ :: B ∧ e₀.key = k₀ ∧ (∀ x ∈ c.entries, e₀.usedAt ≤ x.usedAt) ∧
      c.entries.filter (fun x => !(x.key == k₀)) = A ++ B ∧ rest.Perm (filed (A ++ B)) := by
  have hmem : (t₀, k₀) ∈ filed c.entries := hc.order_perm.subset (by rw [horder]; exact List.mem_cons_self)
  obtain ⟨e₀, he₀, hpair⟩ := List.mem_map.1 hmem
  obtain ⟨ht₀, hk₀⟩ := Prod.mk.inj hpair
  obtain ⟨A, B, hsplit, -, hfilter⟩ := hc.split_at he₀
  refine ⟨A, e₀, B, hsplit, hk₀, fun x hx => ?_, hk₀ ▸ hfilter, ?_⟩
  · -- every other entry is filed after the first tick
    have hx : (x.usedAt, x.key) ∈ (t₀, k₀) :: rest := horder ▸ hc.order_perm.symm.subset
      (List.mem_map.2 ⟨x, hx, rfl⟩)
    have hsorted := hc.order_sorted
    rw [horder, List.pairwise_cons] at hsorted
    rcases List.mem_cons.1 hx with hx | hx
    · have := (Prod.mk.inj hx).1
      omega
    · exact ht₀ ▸ Nat.le_of_lt (hsorted.1 _ hx)
  · have h₂ : (filed c.entries).Perm ((t₀, k₀) :: filed (A ++ B)) := by
      rw [hsplit, ← hpair]
      simp only [filed, List.map_append, List.map_cons]
      exact List.perm_middle
    exact ((horder ▸ hc.order_perm).trans h₂).cons_inv

/-! ## Refreshing a present key -/

/-- Refreshing the entry `e` of a present key `k` by `g`: the entries are `g e` and the entries of
the other keys. -/
theorem Coherent.map_refresh_perm (hc : c.Coherent) {e : LruEntry κ ν} (he : e ∈ c.entries) {k : κ}
    (hk : e.key = k) (g : LruEntry κ ν → LruEntry κ ν) :
    (c.entries.map fun x => if x.key == k then g x else x).Perm
      (g e :: c.entries.filter fun x => !(x.key == k)) := by
  obtain ⟨A, B, hsplit, hother, hfilter⟩ := hc.split_at he
  subst hk
  have hkeep : ∀ l : List (LruEntry κ ν), (∀ x ∈ l, x.key ≠ e.key) → (l.map fun x => if x.key == e.key then g x else x) = l :=
    fun l hl => (List.map_congr_left fun x hx => by simp [hl x hx]).trans (List.map_id l)
  rw [hfilter, hsplit, List.map_append, List.map_cons,
    hkeep A fun x hx => hother x (List.mem_append_left _ hx),
    hkeep B fun x hx => hother x (List.mem_append_right _ hx), if_pos (by simp)]
  exact List.perm_middle

variable {k : κ}

/-- Refreshing a present key to an entry of that key used after every other puts it in front of
the others, which keep their order by last use. -/
theorem Coherent.recent_refresh (hc : c.Coherent) {e : LruEntry κ ν} (he : e ∈ c.entries)
    (hk : e.key = k) (g : LruEntry κ ν → LruEntry κ ν) (hg : (g e).usedAt = c.clock + 1) :
    recent (c.entries.map fun x => if x.key == k then g x else x) =
      g e :: (recent c.entries).filter fun x => !(x.key == k) := by
  have hperm := hc.map_refresh_perm he hk g
  have hsub : (c.entries.filter fun x => !(x.key == k)).Sublist c.entries := List.filter_sublist
  have hold : ∀ x ∈ c.entries.filter fun x => !(x.key == k), x.usedAt < (g e).usedAt := fun x hx =>
    hg ▸ Nat.lt_succ_of_le (hc.used_le_clock x (hsub.subset hx))
  have hrest := ((recent_perm c.entries).filter fun x => !(x.key == k))
  apply recent_eq
  · exact (hperm.map _).nodup_iff.2 (times_nodup_cons ((hsub.map _).nodup hc.times_nodup) hold)
  · exact ((List.perm_cons _).2 hrest).trans hperm.symm
  · exact List.Pairwise.cons (fun x hx => hold x (hrest.subset hx))
      ((recent_later hc.times_nodup).filter _)

/-- Refreshing a present key to an entry of that key used at the next tick, and filing the key
under that tick after the ticks `rest` of the other keys, keeps a cache coherent. -/
theorem Coherent.refresh (hc : c.Coherent) {e : LruEntry κ ν} (he : e ∈ c.entries) (hk : e.key = k)
    {g : LruEntry κ ν → LruEntry κ ν} (hgk : ∀ x, x.key = k → (g x).key = k)
    (hgt : ∀ x, (g x).usedAt = c.clock + 1) {rest : List (Nat × κ)} (hsub : rest.Sublist c.order)
    (hrest : rest.Perm (filed (c.entries.filter fun x => !(x.key == k)))) :
    ({ c with
        clock := c.clock + 1
        entries := c.entries.map fun x => if x.key == k then g x else x
        order := rest ++ [(c.clock + 1, k)] } : LruCache κ ν).Coherent where
  keys_nodup := by
    have hsame : (c.entries.map fun x => if x.key == k then g x else x).map (·.key) =
        c.entries.map (·.key) := by
      rw [List.map_map]
      exact List.map_congr_left fun x _ => by by_cases hx : x.key = k <;> simp [hx, hgk x]
    exact hsame ▸ hc.keys_nodup
  order_perm := by
    -- the key's new tick goes last, its entry goes in front of the others
    have hperm := (hc.map_refresh_perm he hk g).map fun x => (x.usedAt, x.key)
    have hnew : ((g e).usedAt, (g e).key) = (c.clock + 1, k) := by rw [hgt, hgk e hk]
    rw [List.map_cons, hnew] at hperm
    exact (List.perm_append_singleton _ _).trans (((List.perm_cons _).2 hrest).trans hperm.symm)
  order_sorted := by
    rw [List.pairwise_append]
    refine ⟨hc.order_sorted.sublist hsub, List.pairwise_singleton _ _, fun a ha b hb => ?_⟩
    rw [List.mem_singleton.1 hb]
    exact Nat.lt_succ_of_le (hc.order_le_clock a (hsub.subset ha))
  used_le_clock x hx := by
    obtain ⟨y, hy, rfl⟩ := List.mem_map.1 hx
    by_cases hyk : y.key = k
    · simp [hyk, hgt]
    · simpa [hyk] using Nat.le_succ_of_le (hc.used_le_clock y hy)
  size_le := by simpa using hc.size_le
  capacity_pos := hc.capacity_pos

/-! ## Reads -/

omit [LawfulBEq κ] in
theorem get_of_find?_none (h : c.entries.find? (·.key == k) = none) :
    c.get k = (none, { c with clock := c.clock + 1 }) := by
  simp only [get, h]

/-- A read of a present key refreshes its entry and files the key under the new tick, after the
ticks of the other keys. -/
theorem Coherent.get_of_find?_some (hc : c.Coherent) {e : LruEntry κ ν}
    (h : c.entries.find? (·.key == k) = some e) :
    ∃ rest, rest.Sublist c.order ∧ rest.Perm (filed (c.entries.filter fun x => !(x.key == k))) ∧
      c.get k = (some e.value, { c with
        clock := c.clock + 1
        entries := c.entries.map fun x => if x.key == k then { x with usedAt := c.clock + 1 } else x
        order := rest ++ [(c.clock + 1, k)] }) := by
  have hk : e.key = k := by simpa using List.find?_some h
  obtain ⟨rest, hremove, hsub, hrest⟩ := hc.removeAt_used (List.mem_of_find?_eq_some h)
  rw [hk] at hremove hrest
  refine ⟨rest, hsub, hrest, ?_⟩
  have hlt : ∀ p ∈ rest, p.1 < c.clock + 1 := fun p hp =>
    Nat.lt_succ_of_le (hc.order_le_clock p (hsub.subset hp))
  simp only [get, h, hremove, insertAt_of_lt hlt]

/-- A read keeps a cache coherent, answers as a read of its recency list, and moves the list as
that read does. -/
theorem Coherent.get (hc : c.Coherent) (k : κ) :
    (c.get k).2.Coherent ∧ (c.get k).1 = (c.toRecency.get k).1 ∧
      (c.get k).2.toRecency = (c.toRecency.get k).2 := by
  have hfind := hc.find?_toRecency k
  cases h : c.entries.find? (·.key == k) with
  | none =>
    -- a miss only advances the tick
    rw [h, Option.map_none] at hfind
    have hlist : c.toRecency.get k = (none, c.toRecency) := by simp only [RecencyList.get, hfind]
    rw [get_of_find?_none h, hlist]
    exact ⟨{ hc with used_le_clock := fun x hx => Nat.le_succ_of_le (hc.used_le_clock x hx) }, rfl, rfl⟩
  | some e =>
    rw [h, Option.map_some] at hfind
    have he := List.mem_of_find?_eq_some h
    have hk : e.key = k := by simpa using List.find?_some h
    obtain ⟨rest, hsub, hrest, hget⟩ := hc.get_of_find?_some h
    have hlist : c.toRecency.get k = (some e.value, { c.toRecency with
        items := (k, e.value) :: c.toRecency.items.filter fun x => !(x.1 == k) }) := by
      simp only [RecencyList.get, hfind, hk]
    rw [hget, hlist]
    refine ⟨hc.refresh (g := fun x => { x with usedAt := c.clock + 1 }) he hk (fun _ h => h) (fun _ => rfl)
      hsub hrest, rfl, ?_⟩
    rw [toRecency_eq, toRecency_eq]
    simp only [hc.recent_refresh he hk (fun x => { x with usedAt := c.clock + 1 }) rfl,
      List.map_cons, hk, List.filter_map]
    rfl

/-! ## Writes -/

omit [BEq κ] [LawfulBEq κ] in
/-- A write of an absent key, added after the entries `kept` that the cache keeps of its own and
filed after the ticks `rest` that file them, leaves a coherent cache when they fit beside it. -/
theorem Coherent.append_fresh (hc : c.Coherent) {kept : List (LruEntry κ ν)} {rest : List (Nat × κ)}
    (hkept : kept.Sublist c.entries) (hsub : rest.Sublist c.order) (hrest : rest.Perm (filed kept))
    (hk : ∀ x ∈ c.entries, x.key ≠ k) (hfit : kept.length + 1 ≤ c.capacity) (v : ν) :
    ({ c with
        clock := c.clock + 1
        order := rest ++ [(c.clock + 1, k)]
        entries := kept ++ [{ key := k, value := v, usedAt := c.clock + 1 }] } : LruCache κ ν).Coherent where
  keys_nodup := by
    rw [List.map_append, List.nodup_append]
    refine ⟨(hkept.map _).nodup hc.keys_nodup, List.nodup_singleton _, fun a ha b hb hab => ?_⟩
    obtain ⟨x, hx, rfl⟩ := List.mem_map.1 ha
    rw [List.mem_singleton.1 hb] at hab
    exact hk x (hkept.subset hx) hab
  order_perm := by
    simp only [filed, List.map_append, List.map_cons, List.map_nil]
    exact hrest.append (List.Perm.refl _)
  order_sorted := by
    rw [List.pairwise_append]
    refine ⟨hc.order_sorted.sublist hsub, List.pairwise_singleton _ _, fun a ha b hb => ?_⟩
    rw [List.mem_singleton.1 hb]
    exact Nat.lt_succ_of_le (hc.order_le_clock a (hsub.subset ha))
  used_le_clock x hx := by
    rcases List.mem_append.1 hx with hx | hx
    · exact Nat.le_succ_of_le (hc.used_le_clock x (hkept.subset hx))
    · obtain rfl := List.mem_singleton.1 hx
      exact Nat.le_refl _
  size_le := by simpa using hfit
  capacity_pos := hc.capacity_pos

omit [LawfulBEq κ] in
theorem evictOldest_capacity (c : LruCache κ ν) : c.evictOldest.capacity = c.capacity := by
  unfold evictOldest
  split <;> rfl

omit [LawfulBEq κ] in
theorem evictOldest_entries_sublist (c : LruCache κ ν) : c.evictOldest.entries.Sublist c.entries := by
  unfold evictOldest
  split
  · exact List.Sublist.refl _
  · exact List.filter_sublist

/-- A write keeps a cache coherent and moves its recency list as a write of the list does. -/
theorem Coherent.set (hc : c.Coherent) (k : κ) (v : ν) :
    (c.set k v).Coherent ∧ (c.set k v).toRecency = c.toRecency.set k v := by
  have hany := any_toRecency c k
  cases hfind : c.entries.find? (·.key == k) with
  | some e =>
    -- a present key is refreshed with its new value
    have he := List.mem_of_find?_eq_some hfind
    have hek : e.key = k := by simpa using List.find?_some hfind
    have hk : c.entries.any (·.key == k) = true := List.any_eq_true.2 ⟨e, he, by simp [hek]⟩
    obtain ⟨rest, hremove, hsub, hrest⟩ := hc.removeAt_used he
    rw [hek] at hrest
    have hlt : ∀ p ∈ rest, p.1 < c.clock + 1 := fun p hp =>
      Nat.lt_succ_of_le (hc.order_le_clock p (hsub.subset hp))
    have hlist : c.toRecency.set k v = { c.toRecency with
        items := (k, v) :: c.toRecency.items.filter fun x => !(x.1 == k) } := by
      simp only [RecencyList.set, hany, hk, if_true]
    have hcache : c.set k v = { c with
        clock := c.clock + 1
        entries := c.entries.map fun x =>
          if x.key == k then { x with value := v, usedAt := c.clock + 1 } else x
        order := rest ++ [(c.clock + 1, k)] } := by
      simp only [LruCache.set, hfind, hremove, insertAt_of_lt hlt]
    rw [hcache, hlist]
    refine ⟨hc.refresh (g := fun x => { x with value := v, usedAt := c.clock + 1 }) he hek (fun _ h => h)
      (fun _ => rfl) hsub hrest, ?_⟩
    rw [toRecency_eq, toRecency_eq]
    simp only [hc.recent_refresh he hek (fun x => { x with value := v, usedAt := c.clock + 1 }) rfl,
      List.map_cons, hek, List.filter_map]
    rfl
  | none =>
    have hk : ∀ x ∈ c.entries, x.key ≠ k := fun x hx hxk =>
      List.find?_eq_none.1 hfind x hx (by simp [hxk])
    have hany' : c.entries.any (·.key == k) = false :=
      List.any_eq_false.2 fun x hx hxk => hk x hx (by simpa using hxk)
    have hlen : c.toRecency.items.length = c.entries.length := by
      rw [toRecency_eq, List.length_map, recent, List.length_mergeSort]
    by_cases hfull : c.entries.length ≥ c.capacity
    · -- a full cache first evicts the key under the first tick, the entry used first
      have hne : c.order ≠ [] := fun h => by
        have hlen' := hc.order_perm.length_eq
        rw [h] at hlen'
        simp only [List.length_nil, filed, List.length_map] at hlen'
        have := hc.capacity_pos
        omega
      obtain ⟨⟨t₀, k₀⟩, rest, horder⟩ := List.exists_cons_of_ne_nil hne
      obtain ⟨A, e₀, B, hsplit, -, hmin, hfilter, hrest⟩ := hc.oldest horder
      have hsub : rest.Sublist c.order := horder ▸ List.sublist_cons_self _ _
      have hlt : ∀ p ∈ rest, p.1 < c.clock + 1 := fun p hp =>
        Nat.lt_succ_of_le (hc.order_le_clock p (hsub.subset hp))
      have hevict : c.evictOldest = { c with order := rest, entries := A ++ B } := by
        simp only [evictOldest, horder, hfilter]
      have hlist : c.toRecency.set k v = { c.toRecency with
          items := (k, v) :: c.toRecency.items.dropLast } := by
        unfold RecencyList.set
        rw [hany, hany', if_neg Bool.false_ne_true, if_pos (by rw [hlen]; exact hfull)]
      have hcache : c.set k v = { c with
          clock := c.clock + 1
          order := rest ++ [(c.clock + 1, k)]
          entries := (A ++ B) ++ [{ key := k, value := v, usedAt := c.clock + 1 }] } := by
        simp only [LruCache.set, hfind, if_pos hfull, hevict, insertAt_of_lt hlt]
      have hkept : (A ++ B).Sublist c.entries := hsplit ▸ (List.Sublist.refl A).append (List.sublist_cons_self _ _)
      rw [hcache, hlist]
      refine ⟨hc.append_fresh hkept hsub hrest hk
        (by have := hc.size_le; rw [hsplit] at this; simp only [List.length_append, List.length_cons] at this ⊢; omega) v, ?_⟩
      have htimes := hc.times_nodup
      rw [hsplit] at htimes hmin
      rw [toRecency_eq, toRecency_eq, recent_append_fresh ((hkept.map _).nodup hc.times_nodup)
        (fun x hx => Nat.lt_succ_of_le (hc.used_le_clock x (hkept.subset hx))),
        recent_drop_oldest htimes hmin, ← hsplit]
      simp [List.map_dropLast]
    · have hlist : c.toRecency.set k v = { c.toRecency with items := (k, v) :: c.toRecency.items } := by
        unfold RecencyList.set
        rw [hany, hany', if_neg Bool.false_ne_true, if_neg (by rw [hlen]; exact hfull)]
      have hlt : ∀ p ∈ c.order, p.1 < c.clock + 1 := fun p hp => Nat.lt_succ_of_le (hc.order_le_clock p hp)
      have hcache : c.set k v = { c with
          clock := c.clock + 1
          order := c.order ++ [(c.clock + 1, k)]
          entries := c.entries ++ [{ key := k, value := v, usedAt := c.clock + 1 }] } := by
        simp only [LruCache.set, hfind, if_neg hfull, insertAt_of_lt hlt]
      rw [hcache, hlist]
      refine ⟨hc.append_fresh (List.Sublist.refl _) (List.Sublist.refl _) hc.order_perm hk (by omega) v, ?_⟩
      rw [toRecency_eq, toRecency_eq, recent_append_fresh hc.times_nodup
        (fun x hx => Nat.lt_succ_of_le (hc.used_le_clock x hx))]
      rfl

/-! ## What reads and writes keep -/

omit [LawfulBEq κ] in
/-- A read answers the value of the first entry of the key. -/
theorem get_fst (c : LruCache κ ν) (k : κ) :
    (c.get k).1 = (c.entries.find? (·.key == k)).map (·.value) := by
  unfold LruCache.get
  split <;> rename_i h <;> rw [h] <;> rfl

omit [LawfulBEq κ] in
/-- A read keeps every entry's key and value. -/
theorem mem_get_entries {c : LruCache κ ν} {k : κ} {e' : LruEntry κ ν} (h : e' ∈ (c.get k).2.entries) :
    ∃ e ∈ c.entries, e'.key = e.key ∧ e'.value = e.value := by
  unfold LruCache.get at h
  split at h
  · obtain ⟨x, hx, rfl⟩ := List.mem_map.1 h
    refine ⟨x, hx, ?_⟩
    split <;> exact ⟨rfl, rfl⟩
  · exact ⟨e', h, rfl, rfl⟩

/-- After a write, an entry is the one written or an entry from before. -/
theorem mem_set_entries {c : LruCache κ ν} {k : κ} {v : ν} {e' : LruEntry κ ν}
    (h : e' ∈ (c.set k v).entries) : (e'.key = k ∧ e'.value = v) ∨ e' ∈ c.entries := by
  unfold LruCache.set at h
  split at h
  · obtain ⟨x, hx, rfl⟩ := List.mem_map.1 h
    split
    · rename_i hxk
      exact .inl ⟨by simpa using hxk, rfl⟩
    · exact .inr hx
  · rcases List.mem_append.1 h with h | h
    · -- the kept entries are all or all but the evicted one of those before
      split at h
      · exact .inr ((evictOldest_entries_sublist c).subset h)
      · exact .inr h
    · rw [List.mem_singleton.1 h]
      exact .inl ⟨rfl, rfl⟩

/-- A coherent cache reads a key exactly when an entry has it, with that entry's value. -/
theorem Coherent.get_fst_eq_some (hc : c.Coherent) {k : κ} {v : ν} :
    (c.get k).1 = some v ↔ ∃ e ∈ c.entries, e.key = k ∧ e.value = v := by
  rw [get_fst]
  constructor
  · intro h
    obtain ⟨e, he, rfl⟩ := Option.map_eq_some_iff.1 h
    exact ⟨e, List.mem_of_find?_eq_some he, by simpa using List.find?_some he, rfl⟩
  · rintro ⟨e, he, hk, rfl⟩
    -- the entry found has the key too, so it is `e`
    obtain ⟨e₁, h₁⟩ : ∃ e₁, c.entries.find? (·.key == k) = some e₁ :=
      Option.isSome_iff_exists.1 (List.find?_isSome.2 ⟨e, he, by simp [hk]⟩)
    have hk₁ : e₁.key = k := by simpa using List.find?_some h₁
    rw [h₁, List.inj_on_of_nodup_map hc.keys_nodup (List.mem_of_find?_eq_some h₁) he
      (hk₁.trans hk.symm)]
    rfl

/-! ## Runs -/

omit [LawfulBEq κ] in
theorem capacity_step (c : LruCache κ ν) (op : CacheOp κ ν) : (c.step op).2.capacity = c.capacity := by
  cases op with
  | get k =>
    show (c.get k).2.capacity = c.capacity
    unfold LruCache.get
    split <;> rfl
  | set k v =>
    show (c.set k v).capacity = c.capacity
    unfold LruCache.set
    split
    · rfl
    · split
      · exact evictOldest_capacity c
      · rfl

/-- One read or write keeps a coherent cache coherent, answers as its recency list does, and
moves the list as the list's own operation does. -/
theorem Coherent.step (hc : c.Coherent) (op : CacheOp κ ν) :
    (c.step op).2.Coherent ∧ (c.step op).1 = (c.toRecency.step op).1 ∧
      (c.step op).2.toRecency = (c.toRecency.step op).2 := by
  cases op with
  | get k => exact hc.get k
  | set k v =>
    obtain ⟨hcoh, hrec⟩ := hc.set k v
    exact ⟨hcoh, rfl, hrec⟩

/-- A cache made by `LruCache.new capacity` runs every sequence of reads and writes as the recency
list of capacity `max capacity 1` that starts empty: every read answers alike, and at the end the
cache's entries by last use are the list, which holds distinct keys. The cache stays coherent and
keeps its capacity, and its size is the list's length. -/
theorem runs_like_recencyList (capacity : Nat) (ops : List (CacheOp κ ν)) :
    let cache := CacheOp.run LruCache.step (LruCache.new capacity) ops
    let list := CacheOp.run RecencyList.step ⟨max capacity 1, []⟩ ops
    cache.1 = list.1 ∧ cache.2.toRecency = list.2 ∧ cache.2.size = list.2.items.length ∧
      cache.2.capacity = max capacity 1 ∧ (list.2.items.map (·.1)).Nodup ∧ cache.2.Coherent := by
  intro cache list
  have hnew : (LruCache.new capacity : LruCache κ ν).toRecency = ⟨max capacity 1, []⟩ := by
    simp [toRecency_eq, recent, LruCache.new]
  -- the cache is coherent, its entries by last use are the list, and its capacity stays
  obtain ⟨hout, hcoh, hrec, hcap⟩ := CacheOp.run_simulates
    (fun (c : LruCache κ ν) l => c.Coherent ∧ c.toRecency = l ∧ c.capacity = max capacity 1)
    (fun c l op ⟨hc, hl, hcap⟩ => by
      subst hl
      obtain ⟨hcoh, hout, hrec⟩ := hc.step op
      exact ⟨hout, hcoh, hrec, (capacity_step c op).trans hcap⟩)
    ops (LruCache.new capacity) ⟨max capacity 1, []⟩ ⟨new_coherent capacity, hnew, rfl⟩
  refine ⟨hout, hrec, ?_, hcap, ?_, hcoh⟩
  · rw [← hrec, toRecency_eq, List.length_map, recent, List.length_mergeSort]
    rfl
  · rw [← hrec, toRecency_eq, List.map_map]
    exact ((recent_perm _).map _).nodup_iff.2 hcoh.keys_nodup

/-- Two entries, a read of the first and a third entry: the entry read survives and the other is
dropped. -/
theorem read_entry_outlives_eviction :
    (CacheOp.run LruCache.step (LruCache.new 2 : LruCache String Nat)
        [.set "a" 1, .set "b" 2, .get "a", .set "c" 3, .get "b", .get "a", .get "c"]).1 =
      [none, none, some 1, none, none, some 1, some 3] ∧
    let cache := CacheOp.run LruCache.step (LruCache.new 2 : LruCache String Nat)
      [.set "a" 1, .set "b" 2, .get "a", .set "c" 3, .get "b", .get "a", .get "c"]
    let list := CacheOp.run RecencyList.step ⟨max 2 1, []⟩
      [.set "a" 1, .set "b" 2, .get "a", .set "c" 3, .get "b", .get "a", .get "c"]
    cache.1 = list.1 ∧ cache.2.toRecency = list.2 ∧ cache.2.size = list.2.items.length ∧
      cache.2.capacity = max 2 1 ∧ (list.2.items.map (·.1)).Nodup ∧ cache.2.Coherent :=
  ⟨by decide, runs_like_recencyList 2 _⟩

end LruCache

end Routing
