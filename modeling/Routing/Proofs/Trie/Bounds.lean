import Mathlib.Logic.Relation
import Routing.Proofs.Trie.Matching
import Routing.Proofs.Router.Reachable
import Routing.Proofs.Template.Indexed
import Routing.Proofs.Text.CommonPrefix
/-!
# Byte indices stay on character boundaries

The router indexes its texts by byte. `Trie::enter` keeps `path_index`, a byte index into the
path: entering a literal node adds the byte length of its text, a parameter slices the path up
to the next `/` (`end`), a wildcard slices the rest. `enterAt` is that step with every slice
checked, and with a node id outside the arena answering `none` too: `none` is the panic.

The walk keeps every attempt safe to enter. An attempt names a node of the arena whose text, when
literal, comes next in the path left (`InBounds`); and its path left is a suffix of the path,
because entering a node only takes characters off the front (`enter_suffix`). A turn of the walk
(`WalkStep`) keeps both, so every stack the walk reaches from the root keeps them
(`WalkStep.preserves`). At the byte index where that suffix starts, `enterAt` answers what
`Trie.enter` answers (`enterAt_eq`).

Main result `byte_indices_stay_on_boundaries`: the byte loops of the template reader and of
`segment_regex` answer what the character readers answer, `closing_brace` never lowers its depth
below zero, `static_child` and `split` cut where two texts part (`commonPrefixLen_cuts`),
`normalize_path` cuts before a final `/`, and every attempt of every lookup on every router names a
node of the arena and is entered at a boundary of the path.
-/

namespace Routing

open Text

namespace Trie

variable {α : Type} {t : Trie α} {ρ : NodeId → List PathStep} [Regex.Engine]

/-- An attempt the walk can enter safely: it names a node of the arena, and a literal node's text
comes next in the path left. -/
def InBounds (t : Trie α) (a : Attempt) : Prop :=
  a.node < t.nodes.size ∧ ∀ s, t.kind? a.node = some (.literal s) → s.toList <+: a.rest

/-- A turn of the walk that goes on: the attempt on top is entered, and it is dropped when that
fails, or the children to try take its place when its node does not answer. -/
inductive WalkStep (t : Trie α) (method : String) : List Attempt → List Attempt → Prop
  | refused {a : Attempt} {s : List Attempt} :
      t.enter a.node a.rest a.values = none → WalkStep t method (a :: s) s
  | expands {a : Attempt} {s : List Attempt} {rest : List Char} {values : Array String} :
      t.enter a.node a.rest a.values = some (rest, values) →
      (if rest.isEmpty then t.answers a.node method else none) = none →
      WalkStep t method (a :: s) ((t.childrenAt a.node rest).map (fun id => ⟨id, rest, values⟩) ++ s)

/-- `Trie::enter` at byte `i` of the path: the index after the node and the values read, or `none`
inside when a parameter's regex refuses its segment or the engine gives up on it. -/
def enterAt (t : Trie α) (id : NodeId) (path : List Char) (i : Nat) (values : Array String) :
    Option (Option (Nat × Array String)) :=
  match (t.node? id).map Node.kind with
  | some (NodeKind.literal s) => pure (some (i + s.utf8ByteSize, values))
  | some .wildcard => do
    let rest ← charsFrom path i
    pure (some (String.utf8Len path, values.push (String.ofList rest)))
  | some (.param p) => do
    let e ← findFrom (· == '/') path i
    let segment ← slice path i e
    match p.constraint with
    | none => pure (some (e, values.push (String.ofList segment)))
    | some c =>
      match c.regex.groupValues? (String.ofList segment) with
      | some groups => pure (some (e, values ++ groups.toArray))
      | none => pure none
  | none => none

/-! ## Runs of the walk -/

/-- What every turn keeps, every stack the walk reaches keeps. -/
theorem WalkStep.preserves {method : String} (P : Attempt → Prop)
    (hstep : ∀ {s s'}, t.WalkStep method s s' → (∀ a ∈ s, P a) → ∀ a ∈ s', P a)
    {s s' : List Attempt} (h : Relation.ReflTransGen (t.WalkStep method) s s')
    (hs : ∀ a ∈ s, P a) : ∀ a ∈ s', P a := by
  induction h with
  | refl => exact hs
  | tail _ hlast ih => exact hstep hlast ih

/-! ## Attempts name nodes of the arena -/

omit [Regex.Engine] in
/-- The walk starts at the root, which is a node of the arena whose text `/` starts the path. -/
theorem Labelled.inBounds_root (hL : t.Labelled ρ) {path rest : List Char} (hpath : path = '/' :: rest)
    (values : Array String) : t.InBounds ⟨rootId, path, values⟩ := by
  refine ⟨hL.root_lt, fun s hs => ?_⟩
  have hroot : s = "/" := by
    have := hs.symm.trans hL.root_kind
    cases this
    rfl
  subst hroot hpath
  exact ⟨rest, rfl⟩

omit [Regex.Engine] in
/-- The children the walk tries below a node are nodes of the arena, and a literal one is tried
only when its text comes next. -/
theorem Labelled.inBounds_childrenAt (hL : t.Labelled ρ) {x c : NodeId} {rest : List Char}
    (hc : c ∈ t.childrenAt x rest) (values : Array String) : t.InBounds ⟨c, rest, values⟩ := by
  have hchild := mem_childIds_of_childrenAt hc
  refine ⟨hL.child_lt x c hchild, fun s hs => ?_⟩
  obtain ⟨n, hn⟩ := node?_of_mem_childIds hchild
  have hc' : c ∈ t.children n rest := by simpa [childrenAt, hn] using hc
  rcases mem_children.1 hc' with ⟨_, _, _, hpre⟩ | hpar | hwild
  · rw [text_of_literal hs] at hpre
    exact List.isPrefixOf_iff_prefix.1 hpre
  · -- the parameter slots hold parameter nodes, and the wildcard slot the wildcard
    obtain ⟨q, hq⟩ := hL.param_slot x n hn c hpar
    cases hs.symm.trans hq
  · cases hs.symm.trans (hL.wildcard_slot x n hn c hwild)

/-- A turn keeps every attempt of the stack in bounds. -/
theorem Labelled.walkStep_inBounds (hL : t.Labelled ρ) {method : String} {s s' : List Attempt}
    (h : t.WalkStep method s s') (hs : ∀ a ∈ s, t.InBounds a) : ∀ a ∈ s', t.InBounds a := by
  cases h with
  | refused _ => exact fun a ha => hs a (List.mem_cons_of_mem _ ha)
  | expands _ _ =>
    intro b hb
    rcases List.mem_append.1 hb with hb | hb
    · obtain ⟨c, hc, rfl⟩ := List.mem_map.1 hb
      exact hL.inBounds_childrenAt hc _
    · exact hs b (List.mem_cons_of_mem _ hb)

/-! ## The path left is a suffix of the path -/

/-- Entering a node takes characters off the front of the path left. -/
theorem enter_suffix {id : NodeId} {rest rest' : List Char} {values values' : Array String}
    (h : t.enter id rest values = some (rest', values')) : rest' <:+ rest := by
  unfold enter at h
  split at h
  · cases h
    exact List.drop_suffix _ _
  · cases h
    exact List.nil_suffix
  · -- a parameter leaves what follows its segment, whether or not a regex reads the segment
    split at h
    · cases h
      exact List.dropWhile_suffix _
    · dsimp only at h
      split at h
      · cases h
        exact List.dropWhile_suffix _
      · cases h
  · cases h

/-- A turn keeps the path left of every attempt a suffix of the path. -/
theorem walkStep_suffix {method : String} {path : List Char} {s s' : List Attempt}
    (h : t.WalkStep method s s') (hs : ∀ a ∈ s, a.rest <:+ path) : ∀ a ∈ s', a.rest <:+ path := by
  cases h with
  | refused _ => exact fun a ha => hs a (List.mem_cons_of_mem _ ha)
  | expands henter _ =>
    intro b hb
    rcases List.mem_append.1 hb with hb | hb
    · obtain ⟨c, -, rfl⟩ := List.mem_map.1 hb
      exact (enter_suffix henter).trans (hs _ List.mem_cons_self)
    · exact hs b (List.mem_cons_of_mem _ hb)

/-! ## Entering at a byte index -/

/-- An attempt in bounds, entered at the byte index where its path left starts, does not panic:
`Trie::enter` answers what `Trie.enter` answers, and its index after the node starts the path it
leaves. -/
theorem enterAt_eq {a : Attempt} {path : List Char} (hin : t.InBounds a) (hsuf : a.rest <:+ path) :
    t.enterAt a.node path (String.utf8Len path - String.utf8Len a.rest) a.values =
      some ((t.enter a.node a.rest a.values).map fun e =>
        (String.utf8Len path - String.utf8Len e.1, e.2)) := by
  have h := charsFrom_of_suffix hsuf
  have hi := le_of_charsFrom h
  obtain ⟨n, hn⟩ := node?_of_lt hin.1
  have hkind : t.kind? a.node = some n.kind := by simp [kind?, hn]
  rw [enterAt, enter, hn, Option.map_some]
  cases hk : n.kind with
  | literal s =>
    -- the text comes next: the index steps over its bytes
    obtain ⟨d, hd⟩ := hin.2 s (hk ▸ hkind)
    have hdrop : a.rest.drop s.length = d := by
      rw [← hd, ← String.length_toList, List.drop_left]
    have hlen : String.utf8Len a.rest = s.utf8ByteSize + String.utf8Len d := by
      rw [← hd, String.utf8Len_append, String.utf8Len_toList]
    simp only [hdrop, Option.map_some]
    congr 3
    omega
  | wildcard =>
    simp only [h, Option.bind_eq_bind, Option.bind_some, Option.map_some, String.utf8Len_nil,
      Nat.sub_zero]
    rfl
  | param p =>
    -- the segment runs to the next `/`: the search and both ends of the slice are boundaries
    have hpred : (fun c : Char => !(c == '/')) = (fun c => c != '/') := rfl
    have hfind := findFrom_eq (· == '/') h
    have hafter := charsFrom_findFrom (· == '/') h
    have hseg := slice_findFrom (· == '/') h
    rw [hpred] at hfind hafter hseg
    have hend : String.utf8Len path - String.utf8Len a.rest + String.utf8Len (a.rest.takeWhile (· != '/')) =
        String.utf8Len path - String.utf8Len (a.rest.dropWhile (· != '/')) := by
      have := le_of_charsFrom hafter
      omega
    simp only [Option.bind_eq_bind, hfind, Option.bind_some, hseg]
    rw [hend]
    cases p.constraint with
    | none => rfl
    | some c =>
      dsimp only
      cases c.regex.groupValues? (String.ofList (a.rest.takeWhile (· != '/'))) <;> rfl

end Trie

/-! ## Cuts of texts -/

/-- `static_child` cuts the text of a literal node and the path left at `common_prefix_len`, and
`split` cuts the text there with `split_off`: the offset is a boundary of both texts, and the
cuts keep the characters before it and leave those after. -/
theorem commonPrefixLen_cuts (text rest : List Char) :
    slice text 0 (commonPrefixLen text rest) = some (takeBytes text (commonPrefixLen text rest)) ∧
      charsFrom text (commonPrefixLen text rest) = some (dropBytes text (commonPrefixLen text rest)) ∧
      charsFrom rest (commonPrefixLen text rest) = some (dropBytes rest (commonPrefixLen text rest)) := by
  have hsame := take_commonPrefixChars text rest
  rw [commonPrefixLen_eq_utf8Len]
  generalize commonPrefixChars text rest = n at hsame ⊢
  -- both texts are their first `n` characters and the rest, the first `n` the same
  have htext : charsFrom text (String.utf8Len (text.take n)) = some (text.drop n) := by
    simpa using charsFrom_utf8Len_append (text.take n) (text.drop n)
  have hrest : charsFrom rest (String.utf8Len (text.take n)) = some (rest.drop n) := by
    rw [hsame]
    simpa using charsFrom_utf8Len_append (rest.take n) (rest.drop n)
  refine ⟨?_, ?_, ?_⟩
  · rw [takeBytes_utf8Len_take]
    exact slice_eq (by rw [List.take_append_drop]; exact charsFrom_zero text) htext
  · rw [dropBytes_utf8Len_take]
    exact htext
  · rw [hsame, dropBytes_utf8Len_take, ← hsame]
    exact hrest

/-- `&p[..p.len() - 1]` in `normalize_path`, on a path of more than one character that ends with
`/`: the cut before the `/` is a boundary, and keeps what `dropTrailingSlash` keeps. -/
theorem slice_dropTrailingSlash {cs : List Char} (hlen : cs.length > 1) (h : cs.getLast? = some '/') :
    slice cs 0 (String.utf8Len cs - 1) = some (dropTrailingSlash cs) := by
  have hne : cs ≠ [] := fun e => by simp [e] at hlen
  have hcs : cs.dropLast ++ ['/'] = cs := by
    have := List.dropLast_concat_getLast hne
    rwa [show cs.getLast hne = '/' from
      Option.some.inj ((List.getLast?_eq_some_getLast hne).symm.trans h)] at this
  have hslash : charsFrom cs (String.utf8Len cs - 1) = some ['/'] := by
    have := charsFrom_utf8Len_append cs.dropLast ['/']
    rw [hcs] at this
    convert this using 2
    conv_lhs => rw [← hcs]
    simp [show ('/' : Char).utf8Size = 1 from rfl]
  rw [dropTrailingSlash, if_pos ⟨hlen, h⟩]
  exact slice_eq (by rw [hcs]; exact charsFrom_zero cs) hslash

/-! ## Every byte index on a boundary -/

variable [Regex.Engine] in
/-- No byte index the router slices at panics. The byte loops of `compile` (`tokenize`,
`parse_param`, `closing_brace`, `split_optional`) and of `segment_regex` answer `some` of what the
character readers answer, and `closing_brace` at a `{` never lowers its depth below zero;
`static_child` and `split` cut two texts on boundaries where they part, and `normalize_path` before
a final `/`. On every router, every attempt on every stack the walk of a lookup reaches names a
node of the arena, every child id of the arena is in range, and the attempt's byte index
`path_index` is a boundary of the path, where `Trie::enter` answers what `Trie.enter` answers,
whatever the regex engine. -/
theorem byte_indices_stay_on_boundaries :
    (∀ pattern, Indexed.compile pattern = some (Template.compile pattern)) ∧
    (∀ pattern isLast seg, Indexed.segmentRegex pattern isLast seg = some (segmentRegex pattern isLast seg)) ∧
    (∀ (text cs : List Char) (start : Nat), charsFrom text start = some ('\x7b' :: cs) →
      Indexed.closingBrace text start =
        some ((closeBrace cs).map fun r => start + 1 + String.utf8Len r.1)) ∧
    (∀ text rest : List Char,
      slice text 0 (commonPrefixLen text rest) = some (takeBytes text (commonPrefixLen text rest)) ∧
      charsFrom text (commonPrefixLen text rest) = some (dropBytes text (commonPrefixLen text rest)) ∧
      charsFrom rest (commonPrefixLen text rest) = some (dropBytes rest (commonPrefixLen text rest))) ∧
    (∀ cs : List Char, cs.length > 1 → cs.getLast? = some '/' →
      slice cs 0 (String.utf8Len cs - 1) = some (dropTrailingSlash cs)) ∧
    (∀ {α : Type} (c : Config) (r : Router α), Router.Reachable c r →
      (∀ x y, y ∈ r.trie.childIds x → y < r.trie.nodes.size) ∧
      ∀ (method path : String) (s : List Attempt), path.toList.head? = some '/' →
        Relation.ReflTransGen (r.trie.WalkStep method) [⟨rootId, path.toList, #[]⟩] s →
        ∀ a ∈ s, a.node < r.trie.nodes.size ∧
          String.Pos.Raw.IsValid path ⟨path.utf8ByteSize - String.utf8Len a.rest⟩ ∧
          charsFrom path.toList (path.utf8ByteSize - String.utf8Len a.rest) = some a.rest ∧
          r.trie.enterAt a.node path.toList (path.utf8ByteSize - String.utf8Len a.rest) a.values =
            some ((r.trie.enter a.node a.rest a.values).map fun e =>
              (path.utf8ByteSize - String.utf8Len e.1, e.2))) := by
  refine ⟨Indexed.compile_eq, Indexed.segmentRegex_eq, fun _ _ _ h => Indexed.closingBrace_eq h,
    commonPrefixLen_cuts, fun _ hlen h => slice_dropTrailingSlash hlen h, ?_⟩
  intro α c r hr
  obtain ⟨L, hbuilt, -⟩ := hr.builtBy
  obtain ⟨ρ, hR⟩ := hbuilt.registry
  refine ⟨hR.labelled.child_lt, fun method path s hpath hs a ha => ?_⟩
  obtain ⟨rest, hrest⟩ : ∃ rest, path.toList = '/' :: rest := by
    cases h : path.toList with
    | nil => simp [h] at hpath
    | cons x rest => exact ⟨rest, by simp_all⟩
  -- the root attempt is safe, and every turn keeps every attempt safe
  have hin := Trie.WalkStep.preserves _ hR.labelled.walkStep_inBounds hs
    (fun b hb => List.mem_singleton.1 hb ▸ hR.labelled.inBounds_root hrest #[]) a ha
  have hsuf := Trie.WalkStep.preserves _ Trie.walkStep_suffix hs
    (fun b hb => by rw [List.mem_singleton.1 hb]) a ha
  have hcf := charsFrom_of_suffix hsuf
  rw [String.utf8Len_toList] at hcf
  refine ⟨hin.1, ?_, hcf, ?_⟩
  · simpa [String.ofList_toList] using isValid_of_charsFrom hcf
  · simpa only [String.utf8Len_toList] using Trie.enterAt_eq hin hsuf

/-- A lookup of `/café/7` on the router of `/café/:id` takes two turns, through the root and the
literal node `café/`, to the parameter node. That attempt is entered at byte 7 of the path, a
boundary six characters in, since `é` takes two bytes; the segment `7` is read there. -/
theorem cafe_lookup_enters_at_byte_seven :
    Relation.ReflTransGen (((Router.new {} : Router Nat).add "GET" "/café/:id" 1).1.trie.WalkStep "GET")
        [⟨rootId, "/café/7".toList, #[]⟩] [⟨2, "7".toList, #[]⟩] ∧
      "/café/7".utf8ByteSize - String.utf8Len "7".toList = 7 ∧
      "/café/7".length - "7".length = 6 ∧
      String.Pos.Raw.IsValid "/café/7" ⟨7⟩ ∧
      ((Router.new {} : Router Nat).add "GET" "/café/:id" 1).1.trie.enterAt 2 "/café/7".toList 7 #[] =
        some (some (8, #["7"])) := by
  have hr : Router.Reachable {} ((Router.new {} : Router Nat).add "GET" "/café/:id" 1).1 :=
    .add "GET" "/café/:id" 1 .new
  -- the two turns: the root leads to `café/`, which leads to the parameter node
  have h₁ : (((Router.new {} : Router Nat).add "GET" "/café/:id" 1).1.trie.WalkStep "GET")
      [⟨rootId, "/café/7".toList, #[]⟩] [⟨1, "café/7".toList, #[]⟩] := by
    have h : (((Router.new {} : Router Nat).add "GET" "/café/:id" 1).1.trie.WalkStep "GET")
        [⟨rootId, "/café/7".toList, #[]⟩]
        ((((Router.new {} : Router Nat).add "GET" "/café/:id" 1).1.trie.childrenAt rootId
          "café/7".toList).map (fun id => ⟨id, "café/7".toList, #[]⟩) ++ []) :=
      .expands (by decide +kernel) (by decide +kernel)
    have hc : ((Router.new {} : Router Nat).add "GET" "/café/:id" 1).1.trie.childrenAt rootId
        "café/7".toList = [1] := by decide +kernel
    rwa [hc] at h
  have h₂ : (((Router.new {} : Router Nat).add "GET" "/café/:id" 1).1.trie.WalkStep "GET")
      [⟨1, "café/7".toList, #[]⟩] [⟨2, "7".toList, #[]⟩] := by
    have h : (((Router.new {} : Router Nat).add "GET" "/café/:id" 1).1.trie.WalkStep "GET")
        [⟨1, "café/7".toList, #[]⟩]
        ((((Router.new {} : Router Nat).add "GET" "/café/:id" 1).1.trie.childrenAt 1
          "7".toList).map (fun id => ⟨id, "7".toList, #[]⟩) ++ []) :=
      .expands (by decide +kernel) (by decide +kernel)
    have hc : ((Router.new {} : Router Nat).add "GET" "/café/:id" 1).1.trie.childrenAt 1 "7".toList = [2] := by
      decide +kernel
    rwa [hc] at h
  have hsteps := Relation.ReflTransGen.tail (Relation.ReflTransGen.single h₁) h₂
  obtain ⟨-, hvalid, -, henter⟩ := (byte_indices_stay_on_boundaries.2.2.2.2.2 {} _ hr).2 "GET" "/café/7" _
    (by decide) hsteps ⟨2, "7".toList, #[]⟩ List.mem_cons_self
  have hseven : "/café/7".utf8ByteSize - String.utf8Len "7".toList = 7 := by decide
  have hread : (((Router.new {} : Router Nat).add "GET" "/café/:id" 1).1.trie.enter 2 "7".toList #[]).map
      (fun e => ("/café/7".utf8ByteSize - String.utf8Len e.1, e.2)) = some (8, #["7"]) := by decide +kernel
  rw [hseven] at hvalid henter
  exact ⟨hsteps, hseven, by decide, hvalid, henter.trans (congrArg some hread)⟩

end Routing
