import Mathlib.Data.List.Chain
import Routing.Path.Normalize
import Routing.Router.Lookup
/-!
# What normalising does to slashes

Collapsing runs of `/` leaves no two `/` side by side (`noDoubleSlash_collapseSlashes`), and
leaves a text that has none as it is (`collapseSlashes_of_noDoubleSlash`). Dropping a final `/`
keeps that. So, with duplicate slashes ignored, a normalised path has no two `/` side by side
(`noDoubleSlash_normalize`); and normalising a text that has none, or any text when duplicate
slashes count, at most drops its final `/` (`normalize_of_noDoubleSlash`).

With duplicate slashes ignored a normalised path is its own normal form
(`normalize_gives_stable_normal_form`): it holds no `//`, normalising it again changes nothing,
and when trailing slashes are ignored too it ends in `/` only if it is `/`; so a router resolves a
path and its normal form alike. Idempotence needs the collapse: with trailing slashes ignored
alone, `/a//` becomes `/a/` and then `/a`. With both options off a path is kept as it is.
-/

namespace Routing

/-- No two `/` stand side by side. -/
def NoDoubleSlash (cs : List Char) : Prop := cs.IsChain fun a b => a = '/' → b ≠ '/'

theorem head?_collapseSlashes (cs : List Char) : (collapseSlashes cs).head? = cs.head? := by
  fun_induction collapseSlashes cs with
  | case1 => rfl
  | case2 r ih => exact ih
  | case3 c r _ _ => rfl

theorem noDoubleSlash_collapseSlashes (cs : List Char) : NoDoubleSlash (collapseSlashes cs) := by
  fun_induction collapseSlashes cs with
  | case1 => exact .nil
  | case2 r ih => exact ih
  | case3 c r hne ih =>
    -- a `/` is followed by the collapsed rest only when that rest does not start with `/`
    refine List.IsChain.cons ih fun y hy hc hy' => ?_
    rw [head?_collapseSlashes] at hy
    subst hc hy'
    obtain ⟨r', rfl⟩ : ∃ r', r = '/' :: r' := by
      cases r with
      | nil => cases hy
      | cons d r' => cases hy; exact ⟨r', rfl⟩
    exact hne r' rfl rfl

theorem collapseSlashes_of_noDoubleSlash {cs : List Char} (h : NoDoubleSlash cs) :
    collapseSlashes cs = cs := by
  fun_induction collapseSlashes cs with
  | case1 => rfl
  | case2 r ih => exact absurd rfl ((List.isChain_cons_cons.1 h).1 rfl)
  | case3 c r _ ih => rw [ih (List.IsChain.tail h : NoDoubleSlash (c :: r).tail)]

/-- Dropping a final `/` leaves the text or the text without its last character, which was a `/`. -/
theorem dropTrailingSlash_cases (cs : List Char) :
    dropTrailingSlash cs = cs ∨ (dropTrailingSlash cs = cs.dropLast ∧ cs.getLast? = some '/') := by
  unfold dropTrailingSlash
  split
  · rename_i h
    exact .inr ⟨rfl, h.2⟩
  · exact .inl rfl

theorem NoDoubleSlash.dropTrailingSlash {cs : List Char} (h : NoDoubleSlash cs) :
    NoDoubleSlash (dropTrailingSlash cs) := by
  rcases dropTrailingSlash_cases cs with h' | ⟨h', -⟩ <;> rw [h']
  · exact h
  · exact List.IsChain.dropLast h

/-- A text followed by `/`, with no two `/` side by side, does not end in `/`. -/
theorem NoDoubleSlash.getLast_ne_slash {X r : List Char} (h : NoDoubleSlash (X ++ '/' :: r)) :
    ∀ x ∈ X.getLast?, x ≠ '/' :=
  fun x hx hx' => (List.isChain_append.1 h).2.2 x hx '/' rfl hx' rfl

/-- At most one `/` after a text that does not end in `/` doubles no `/`. -/
theorem NoDoubleSlash.append_slash {Y T : List Char} (hY : NoDoubleSlash Y)
    (hlast : ∀ x ∈ Y.getLast?, x ≠ '/') (hT : T = [] ∨ T = ['/']) : NoDoubleSlash (Y ++ T) := by
  have hT' : NoDoubleSlash T := by
    rcases hT with rfl | rfl
    · exact .nil
    · exact List.isChain_singleton _
  exact List.IsChain.append hY hT' fun x hx _ _ hx' => absurd hx' (hlast x hx)

/-- Dropping a final `/` from a text followed by at most one `/` leaves a prefix of the text
followed by at most one `/`. -/
theorem dropTrailingSlash_append_slash (X : List Char) {T : List Char} (hT : T = [] ∨ T = ['/']) :
    ∃ A T', dropTrailingSlash (X ++ T) = A ++ T' ∧ A <+: X ∧ (T' = [] ∨ T' = ['/']) := by
  rcases dropTrailingSlash_cases (X ++ T) with h | ⟨h, -⟩
  · exact ⟨X, T, h, List.prefix_refl X, hT⟩
  · rcases hT with rfl | rfl
    · exact ⟨X.dropLast, [], by simpa using h, List.dropLast_prefix X, .inl rfl⟩
    · exact ⟨X, [], by simp [h], List.prefix_refl X, .inl rfl⟩

/-- Dropping a final `/` from a text that does not end in `/`, followed by at most one `/`, at
most drops that `/`. -/
theorem dropTrailingSlash_append_slash_of_getLast {Y T : List Char} (hlast : ∀ x ∈ Y.getLast?, x ≠ '/')
    (hT : T = [] ∨ T = ['/']) : ∃ T', dropTrailingSlash (Y ++ T) = Y ++ T' ∧ (T' = [] ∨ T' = ['/']) := by
  rcases dropTrailingSlash_cases (Y ++ T) with h | ⟨h, hend⟩
  · exact ⟨T, h, hT⟩
  · rcases hT with rfl | rfl
    · rw [List.append_nil] at hend
      exact absurd rfl (hlast '/' hend)
    · exact ⟨[], by simp [h], .inl rfl⟩

theorem length_collapseSlashes_le (cs : List Char) : (collapseSlashes cs).length ≤ cs.length := by
  fun_induction collapseSlashes cs with
  | case1 => exact Nat.le_refl 0
  | case2 r ih =>
    simp only [List.length_cons] at ih ⊢
    omega
  | case3 c r _ ih =>
    simp only [List.length_cons]
    omega

theorem length_dropTrailingSlash_le (cs : List Char) : (dropTrailingSlash cs).length ≤ cs.length := by
  rcases dropTrailingSlash_cases cs with h | ⟨h, -⟩
  · rw [h]
  · rw [h, List.length_dropLast]
    omega

/-- Normalising never lengthens a path. -/
theorem length_normalize_le (cfg : Config) (path : String) : (cfg.normalize path).length ≤ path.length := by
  have hdup : (if cfg.ignoreDuplicateSlashes then collapseSlashes path.toList else path.toList).length ≤
      path.length := by
    rw [← String.length_toList]
    split
    · exact length_collapseSlashes_le _
    · exact Nat.le_refl _
  simp only [Config.normalize, String.length_ofList]
  split
  · exact (length_dropTrailingSlash_le _).trans hdup
  · exact hdup

/-- With duplicate slashes ignored, a path is collapsed and then at most loses a final `/`. -/
theorem toList_normalize_collapsed {cfg : Config} (hdup : cfg.ignoreDuplicateSlashes = true) (s : String) :
    (cfg.normalize s).toList = if cfg.ignoreTrailingSlash then dropTrailingSlash (collapseSlashes s.toList)
      else collapseSlashes s.toList := by
  simp [Config.normalize, hdup]

/-- With duplicate slashes ignored, a normalised path has no two `/` side by side. -/
theorem noDoubleSlash_normalize {cfg : Config} (hdup : cfg.ignoreDuplicateSlashes = true) (s : String) :
    NoDoubleSlash (cfg.normalize s).toList := by
  rw [toList_normalize_collapsed hdup]
  split
  · exact (noDoubleSlash_collapseSlashes _).dropTrailingSlash
  · exact noDoubleSlash_collapseSlashes _

/-- Normalising a text that needs no collapsing at most drops its final `/`. -/
theorem normalize_of_noDoubleSlash (cfg : Config) {cs : List Char}
    (h : cfg.ignoreDuplicateSlashes = true → NoDoubleSlash cs) :
    (cfg.normalize (String.ofList cs)).toList =
      if cfg.ignoreTrailingSlash then dropTrailingSlash cs else cs := by
  have hcs : (if cfg.ignoreDuplicateSlashes then collapseSlashes cs else cs) = cs := by
    split
    · rename_i hdup
      exact collapseSlashes_of_noDoubleSlash (h hdup)
    · rfl
  simp only [Config.normalize, String.toList_ofList, hcs]

/-- Normalising a text that does not end in `/`, followed by at most one `/`, keeps the text and
at most one `/` after it. -/
theorem normalize_append_slash_of_getLast (cfg : Config) {Y T : List Char}
    (h : cfg.ignoreDuplicateSlashes = true → NoDoubleSlash (Y ++ T)) (hlast : ∀ x ∈ Y.getLast?, x ≠ '/')
    (hT : T = [] ∨ T = ['/']) :
    ∃ T', (cfg.normalize (String.ofList (Y ++ T))).toList = Y ++ T' ∧ (T' = [] ∨ T' = ['/']) := by
  rw [normalize_of_noDoubleSlash cfg h]
  split
  · exact dropTrailingSlash_append_slash_of_getLast hlast hT
  · exact ⟨T, rfl, hT⟩

/-- Normalising a text followed by at most one `/`, when it needs no collapsing, leaves a prefix
of the text followed by at most one `/`. -/
theorem normalize_append_slash (cfg : Config) {X T : List Char}
    (h : cfg.ignoreDuplicateSlashes = true → NoDoubleSlash (X ++ T)) (hT : T = [] ∨ T = ['/']) :
    ∃ A T', (cfg.normalize (String.ofList (X ++ T))).toList = A ++ T' ∧ A <+: X ∧
      (T' = [] ∨ T' = ['/']) := by
  rw [normalize_of_noDoubleSlash cfg h]
  split
  · exact dropTrailingSlash_append_slash X hT
  · exact ⟨X, T, rfl, List.prefix_refl X, hT⟩

/-- No two `/` side by side: the text has no `//` anywhere. -/
theorem NoDoubleSlash.ne_append_slash_slash {cs : List Char} (h : NoDoubleSlash cs) (X Y : List Char) :
    cs ≠ X ++ '/' :: '/' :: Y := by
  rintro rfl
  exact (List.isChain_cons_cons.1 (List.isChain_append.1 h).2.1).1 rfl rfl

/-- With no two `/` side by side, what dropping a final `/` leaves ends in `/` only when it is
`/` alone. -/
theorem dropTrailingSlash_eq_root {cs : List Char} (h : NoDoubleSlash cs)
    (hlast : (dropTrailingSlash cs).getLast? = some '/') : dropTrailingSlash cs = ['/'] := by
  unfold dropTrailingSlash at hlast ⊢
  split at hlast
  · -- the dropped `/` would follow a `/`
    rename_i hcut
    rw [← List.dropLast_append_getLast? '/' hcut.2] at h
    exact absurd rfl (h.getLast_ne_slash '/' hlast)
  · -- a kept text ending in `/` is one character long
    rename_i hkeep
    obtain ⟨ys, rfl⟩ := List.getLast?_eq_some_iff.1 hlast
    have hys : ys = [] := by
      rw [← List.length_eq_zero_iff]
      simp only [List.length_append, List.length_singleton, hlast, and_true] at hkeep
      omega
    simp [hys]

/-- With no two `/` side by side, a second drop of a final `/` changes nothing. -/
theorem dropTrailingSlash_dropTrailingSlash {cs : List Char} (h : NoDoubleSlash cs) :
    dropTrailingSlash (dropTrailingSlash cs) = dropTrailingSlash cs := by
  rw [dropTrailingSlash, if_neg]
  rintro ⟨hlen, hlast⟩
  rw [dropTrailingSlash_eq_root h hlast] at hlen
  exact absurd hlen (by decide)

section Collapsed

variable {cfg : Config}

/-- With duplicate slashes ignored, a normalised path has no `//`. -/
theorem normalize_ne_append_slash_slash (hdup : cfg.ignoreDuplicateSlashes = true) (s a b : String) :
    cfg.normalize s ≠ a ++ "//" ++ b := by
  intro h
  have hlist : (cfg.normalize s).toList = a.toList ++ '/' :: '/' :: b.toList := by simp [h]
  exact (noDoubleSlash_normalize hdup s).ne_append_slash_slash _ _ hlist

/-- With duplicate and trailing slashes ignored, a normalised path ends in `/` only when it is
`/`. -/
theorem normalize_eq_root_of_append_slash (hdup : cfg.ignoreDuplicateSlashes = true)
    (htrail : cfg.ignoreTrailingSlash = true) (s a : String) (h : cfg.normalize s = a ++ "/") :
    cfg.normalize s = "/" := by
  have hlist := toList_normalize_collapsed hdup s
  simp only [htrail, ↓reduceIte] at hlist
  have hlast : (dropTrailingSlash (collapseSlashes s.toList)).getLast? = some '/' := by
    rw [← hlist, h]; simp
  rw [← String.toList_inj, hlist, dropTrailingSlash_eq_root (noDoubleSlash_collapseSlashes _) hlast]
  rfl

/-- With duplicate slashes ignored, normalising twice is normalising once. -/
theorem normalize_normalize (hdup : cfg.ignoreDuplicateSlashes = true) (s : String) :
    cfg.normalize (cfg.normalize s) = cfg.normalize s := by
  -- the normal form needs no collapsing, so the second pass at most drops a final `/` again
  have htwice := normalize_of_noDoubleSlash cfg fun _ => noDoubleSlash_normalize hdup s
  rw [String.ofList_toList] at htwice
  rw [← String.toList_inj, htwice, toList_normalize_collapsed hdup s]
  split
  · exact dropTrailingSlash_dropTrailingSlash (noDoubleSlash_collapseSlashes _)
  · rfl

end Collapsed

/-- With both options off a path is kept as it is. -/
theorem normalize_of_options_off {cfg : Config} (hdup : cfg.ignoreDuplicateSlashes = false)
    (htrail : cfg.ignoreTrailingSlash = false) (s : String) : cfg.normalize s = s := by
  simp [Config.normalize, hdup, htrail]

section Resolving

variable [Regex.Engine]

/-- A router sees a path through its normal form only. -/
theorem Router.resolve_eq_of_normalize_eq {α : Type} (r : Router α) (method : String) {s s' : String}
    (h : r.config.normalize s = r.config.normalize s') : r.resolve method s = r.resolve method s' := by
  simp only [Router.resolve, h]

/-- With duplicate slashes ignored, normalising gives a normal form: no `//`, a fixed point of
normalising, ending in `/` only as `/` when trailing slashes are ignored too, and resolved as the
path it came from. With both options off normalising keeps every path. -/
theorem normalize_gives_stable_normal_form (cfg : Config) (s : String) :
    (cfg.ignoreDuplicateSlashes = true →
      (∀ a b : String, cfg.normalize s ≠ a ++ "//" ++ b) ∧
      cfg.normalize (cfg.normalize s) = cfg.normalize s ∧
      (cfg.ignoreTrailingSlash = true → ∀ a : String, cfg.normalize s = a ++ "/" → cfg.normalize s = "/") ∧
      ∀ {α : Type} (r : Router α) (method : String), r.config = cfg →
        r.resolve method s = r.resolve method (cfg.normalize s)) ∧
    (cfg.ignoreDuplicateSlashes = false → cfg.ignoreTrailingSlash = false → cfg.normalize s = s) := by
  refine ⟨fun hdup => ⟨normalize_ne_append_slash_slash hdup s, normalize_normalize hdup s,
    fun htrail => normalize_eq_root_of_append_slash hdup htrail s, ?_⟩,
    fun hdup htrail => normalize_of_options_off hdup htrail s⟩
  intro α r method hcfg
  subst hcfg
  exact r.resolve_eq_of_normalize_eq method (normalize_normalize hdup s).symm

end Resolving

/-- Both options on, `/users//123//orders/` normalises to `/users/123/orders`, which stays; both
off, `//api//users/` is kept. -/
theorem users_orders_path_normal_form :
    ({ ignoreTrailingSlash := true, ignoreDuplicateSlashes := true } : Config).normalize
        "/users//123//orders/" = "/users/123/orders" ∧
      ({ ignoreTrailingSlash := true, ignoreDuplicateSlashes := true } : Config).normalize
        "/users/123/orders" = "/users/123/orders" ∧
      ({} : Config).normalize "//api//users/" = "//api//users/" := by
  have hone : ({ ignoreTrailingSlash := true, ignoreDuplicateSlashes := true } : Config).normalize
      "/users//123//orders/" = "/users/123/orders" := by decide +kernel
  have htwice := ((normalize_gives_stable_normal_form
    { ignoreTrailingSlash := true, ignoreDuplicateSlashes := true } "/users//123//orders/").1 rfl).2.1
  rw [hone] at htwice
  exact ⟨hone, htwice, (normalize_gives_stable_normal_form {} "//api//users/").2 rfl rfl⟩

example : ({ ignoreTrailingSlash := true } : Config).normalize "/a//" = "/a/" ∧
    ({ ignoreTrailingSlash := true } : Config).normalize "/a/" = "/a" := by
  decide +kernel

end Routing
