import Routing.Proofs.Router.Reachable
/-!
# Parameter siblings in priority order

The parameter children of a node are tried in list order, so their order decides which of two
spans that both read a segment wins. Insertion places a new parameter node before the first
sibling that sorts after it (`ParamNode.sortsAfter`): an unconstrained node after a constrained
one, a constrained node without literal suffix after one with a suffix, a suffix after a longer
suffix that ends with it. Because `sortsAfter` is a strict partial order (`sortsAfter_irrefl`,
`sortsAfter_trans`), inserting before the first element that must come after the new one keeps a
list ordered (`pairwise_insertIdx_findIdx`), whatever order the elements arrive in.

`Trie.Prioritised` is the invariant: every sibling list is a linear extension of `sortsAfter`,
and a parameter node with a literal suffix has a regex, as the template reader makes every such
span (`ofTemplate_regexOfSuffix`). Every edit of insertion other than a new parameter node keeps
the sibling lists and the order data of parameter nodes as they were (`Trie.KeepsSiblings`), so
every router reached by additions has its siblings in priority order, with no two of them sharing
a regex (`paramChildren_in_priority_order`).
-/

namespace Routing

variable {α : Type}

/-! ## `sortsAfter` is a strict partial order -/

namespace ParamNode

theorem sortsAfter_iff {p q : ParamNode} :
    p.sortsAfter q = true ↔ p.rank < q.rank ∨ p.rank = q.rank ∧
      ∃ s o, p.suffix = some s ∧ q.suffix = some o ∧ s.length < o.length ∧ s.toList <:+ o.toList := by
  unfold sortsAfter
  by_cases hr : p.rank = q.rank
  · cases hs : p.suffix <;> cases ho : q.suffix <;>
      simp [hr, List.isSuffixOf_iff_suffix]
  · have : p.rank < q.rank ∨ q.rank < p.rank := Nat.lt_or_gt_of_ne hr
    simp [hr]

theorem sortsAfter_irrefl (p : ParamNode) : p.sortsAfter p = false := by
  rw [Bool.eq_false_iff]
  intro h
  rcases sortsAfter_iff.1 h with h | ⟨-, s, o, hs, ho, hlt, -⟩
  · exact Nat.lt_irrefl _ h
  · rw [hs] at ho
    cases ho
    exact Nat.lt_irrefl _ hlt

theorem sortsAfter_trans {p q r : ParamNode} (hpq : p.sortsAfter q = true)
    (hqr : q.sortsAfter r = true) : p.sortsAfter r = true := by
  rw [sortsAfter_iff] at hpq hqr ⊢
  rcases hpq with hpq | ⟨hpq, s, o, hs, ho, hso, hsuf⟩ <;>
    rcases hqr with hqr | ⟨hqr, o', u, ho', hu, hou, hsuf'⟩
  · exact .inl (Nat.lt_trans hpq hqr)
  · exact .inl (hqr ▸ hpq)
  · exact .inl (hpq ▸ hqr)
  · -- within one class, suffixes that end one another chain
    rw [ho] at ho'
    cases ho'
    exact .inr ⟨hpq.trans hqr, s, u, hs, hu, Nat.lt_trans hso hou, hsuf.trans hsuf'⟩

/-- What a node does not sort after, a node it sorts after does not sort after either. -/
theorem sortsAfter_false_of_sortsAfter {p q r : ParamNode} (hqp : q.sortsAfter p = true)
    (hqr : q.sortsAfter r = false) : p.sortsAfter r = false := by
  rw [Bool.eq_false_iff]
  intro hpr
  rw [sortsAfter_trans hqp hpr] at hqr
  cases hqr

theorem sortsAfter_asymm {p q : ParamNode} (h : p.sortsAfter q = true) : q.sortsAfter p = false :=
  sortsAfter_false_of_sortsAfter h (sortsAfter_irrefl p)

theorem rank_congr {p p' : ParamNode} (hc : p'.constraint = p.constraint) (hs : p'.suffix = p.suffix) :
    p'.rank = p.rank := by
  unfold rank
  rw [hc, hs]

theorem rank_eq (p : ParamNode) :
    p.rank = if p.constraint.isSome then (if p.suffix.isSome then 2 else 1) else 0 := by
  unfold rank
  cases p.constraint <;> cases p.suffix <;> rfl

/-- The three orders the priority classes give: a node with a regex before one without, a node
with regex and suffix before one with a regex alone, and, among nodes whose suffixes imply a
regex, a longer suffix before a shorter one it ends with. The node that goes second sorts after
the first. -/
theorem sortsAfter_of_precedes {p q : ParamNode} (hp : p.suffix.isSome → p.constraint.isSome)
    (hq : q.suffix.isSome → q.constraint.isSome)
    (h : p.constraint.isSome ∧ q.constraint = none ∨
      p.constraint.isSome ∧ p.suffix.isSome ∧ q.constraint.isSome ∧ q.suffix = none ∨
      ∃ o s, p.suffix = some o ∧ q.suffix = some s ∧ s.length < o.length ∧ s.toList <:+ o.toList) :
    q.sortsAfter p = true := by
  rw [sortsAfter_iff, rank_eq, rank_eq]
  rcases h with ⟨hpc, hqc⟩ | ⟨hpc, hps, hqc, hqs⟩ | ⟨o, s, ho, hs, hlt, hsuf⟩
  · left
    simp [hpc, hqc]
    split <;> omega
  · left
    simp [hpc, hps, hqc, hqs]
  · -- both suffixes imply a regex: one class, and the suffixes decide
    have hpc := hp (by simp [ho])
    have hqc := hq (by simp [hs])
    exact .inr ⟨by simp [hpc, hqc, ho, hs], s, o, hs, ho, hlt, hsuf⟩

/-- Two parameter nodes with the same regex and suffix sort alike. -/
theorem sortsAfter_congr {p p' q q' : ParamNode} (hp : p'.constraint = p.constraint ∧ p'.suffix = p.suffix)
    (hq : q'.constraint = q.constraint ∧ q'.suffix = q.suffix) : p'.sortsAfter q' = p.sortsAfter q := by
  unfold sortsAfter
  rw [rank_congr hp.1 hp.2, rank_congr hq.1 hq.2, hp.2, hq.2]

end ParamNode

/-! ## Inserting before the first element that must come after -/

/-- Inserting `x` before the first element of `l` that must come after it (`P`) keeps `l` in the
order `R`, when `R` leads to `x` from every element that need not come after it, and from `x` to
every element that must come after it and to everything such an element leads to. The induction
follows the search for the first such element. -/
theorem pairwise_insertIdx_findIdx {β : Type} {R : β → β → Prop} {P : β → Bool} {x : β} :
    ∀ {l : List β}, l.Pairwise R → (∀ y ∈ l, P y = false → R y x) →
      (∀ y ∈ l, P y = true → R x y ∧ ∀ z, R y z → R x z) →
      (l.insertIdx ((l.findIdx? P).getD l.length) x).Pairwise R
  | [], _, _, _ => by simp
  | y :: l, hl, hbefore, hafter => by
    rw [List.pairwise_cons] at hl
    cases hy : P y with
    | true =>
      -- `y` must come after `x`: `x` goes first
      obtain ⟨hxy, hxz⟩ := hafter y List.mem_cons_self hy
      rw [List.findIdx?_cons, if_pos hy, Option.getD_some, List.insertIdx_zero, List.pairwise_cons]
      refine ⟨fun z hz => ?_, List.pairwise_cons.2 hl⟩
      rcases List.mem_cons.1 hz with rfl | hz
      · exact hxy
      · exact hxz z (hl.1 z hz)
    | false =>
      have hpos : (((y :: l).findIdx? P).getD (y :: l).length) = (l.findIdx? P).getD l.length + 1 := by
        rw [List.findIdx?_cons, if_neg (by simp [hy]), List.length_cons]
        cases l.findIdx? P <;> rfl
      rw [hpos, List.insertIdx_succ_cons, List.pairwise_cons]
      refine ⟨fun z hz => ?_, pairwise_insertIdx_findIdx hl.2
        (fun z hz => hbefore z (List.mem_cons_of_mem _ hz))
        (fun z hz => hafter z (List.mem_cons_of_mem _ hz))⟩
      rcases (List.mem_insertIdx (Trie.getD_findIdx?_le l P)).1 hz with rfl | hz
      · exact hbefore y List.mem_cons_self hy
      · exact hl.1 z hz

/-- Of two different members of a list, one comes before the other. -/
theorem pair_sublist_or {β : Type} {a b : β} :
    ∀ {l : List β}, a ∈ l → b ∈ l → a ≠ b → List.Sublist [a, b] l ∨ List.Sublist [b, a] l
  | y :: l, ha, hb, hab => by
    rcases List.mem_cons.1 ha with rfl | ha' <;> rcases List.mem_cons.1 hb with rfl | hb'
    · exact absurd rfl hab
    · exact .inl (List.Sublist.cons_cons _ (List.singleton_sublist.2 hb'))
    · exact .inr (List.Sublist.cons_cons _ (List.singleton_sublist.2 ha'))
    · rcases pair_sublist_or ha' hb' hab with h | h
      · exact .inl (h.cons _)
      · exact .inr (h.cons _)

/-! ## Spans with a literal suffix have a regex -/

/-- A parameter token whose span has a literal suffix has a regex. -/
def Token.RegexOfSuffix : Token → Prop
  | .param span => span.suffix.isSome → span.regex.isSome
  | _ => True

/-- A parameter token whose span has a literal suffix has a regex, read. -/
def ReadyToken.RegexOfSuffix : ReadyToken → Prop
  | .param span constraint => span.suffix.isSome → constraint.isSome
  | _ => True

/-- A span that ends in literal text needs a regex. -/
theorem readSpan_needed (pattern : String) : ∀ (cs : List Char) (st st' : SpanRegex) (lit rest : List Char),
    readSpan pattern cs st = .ok (st', lit, rest) → lit ≠ [] → st'.needed = true := by
  intro cs
  induction hn : cs.length using Nat.strongRecOn generalizing cs with
  | _ n ih =>
    intro st st' lit rest h hlit
    rw [readSpan] at h
    obtain ⟨⟨st₁, afterGroup⟩, -, h⟩ := Except.bind_eq_ok.1 h
    dsimp only at h
    generalize spanLiteral afterGroup = sl at h
    obtain ⟨l, rest'⟩ := sl
    dsimp only at h
    split at h
    · -- a chained parameter: the literal is the last parameter's
      rename_i more
      split at h
      · exact ih more.length (by omega) more rfl _ _ _ _ h hlit
      · cases h
    · cases h
      simp [hlit]

theorem readParamSpan_regexOfSuffix {pattern : String} {cs : List Char} {span : ParamSpan}
    {names : List String} {rest : List Char}
    (h : readParamSpan pattern cs = .ok (span, names, rest)) : Token.RegexOfSuffix (.param span) := by
  unfold readParamSpan at h
  obtain ⟨⟨st, lit, rest'⟩, hread, h⟩ := Except.bind_eq_ok.1 h
  cases h
  intro hs
  have hlit : lit ≠ [] := by
    intro hnil
    simp [hnil] at hs
  have hneeded := readSpan_needed pattern cs _ st lit rest hread hlit
  simp [hneeded]

theorem param_mem_flushText {lit : List Char} {acc : List Token} {span : ParamSpan}
    (h : .param span ∈ flushText lit acc) : .param span ∈ acc := by
  unfold flushText at h
  split_ifs at h
  · exact h
  · simpa using h

/-- The parameter spans of a route read from a template all satisfy what every span
`readParamSpan` reads satisfies. -/
theorem readTokens_spans (P : ParamSpan → Prop)
    (hP : ∀ pattern cs span names rest, readParamSpan pattern cs = .ok (span, names, rest) → P span)
    (pattern : String) (cs lit : List Char) (acc : List Token) (names : List String) :
    (∀ span, .param span ∈ acc → P span) →
      ∀ r, readTokens pattern cs lit acc names = .ok r → ∀ span, .param span ∈ r.tokens → P span := by
  fun_induction readTokens pattern cs lit acc names with
  | case1 lit acc names =>
    intro h r hr
    cases hr
    exact fun span hspan => h span (param_mem_flushText hspan)
  | case2 lit acc names r ih => exact ih
  | case3 lit acc names r hne ih =>
    intro h res hres
    obtain ⟨⟨span, spanNames, rest⟩, hspan, hres⟩ := Except.bind_eq_ok.1 hres
    dsimp only at hres
    split at hres
    · rename_i hlen
      refine ih span spanNames rest hlen (fun span' hmem => ?_) res hres
      rcases List.mem_append.1 hmem with hmem | hmem
      · exact h span' (param_mem_flushText hmem)
      · obtain rfl : span' = span := by simpa using hmem
        exact hP _ _ _ _ _ hspan
    · cases hres
  | case4 lit acc names r hr =>
    intro h res hres
    cases hres
    intro span hmem
    rcases List.mem_append.1 hmem with hmem | hmem
    · exact h span (param_mem_flushText hmem)
    · simp at hmem
  | case5 lit acc names r hr =>
    intro _ res hres
    cases hres
  | case6 lit acc names c r hcc hc hs ih => exact ih

/-- In every route the reader gives, a span with a literal suffix has a regex. -/
theorem ofTemplate_regexOfSuffix {pattern : String} {r : Route} (h : Route.ofTemplate pattern = .ok r) :
    ∀ tok ∈ r.tokens, tok.RegexOfSuffix := by
  have hspans := readTokens_spans (fun span => Token.RegexOfSuffix (.param span))
    (fun _ _ _ _ _ hspan => readParamSpan_regexOfSuffix hspan) pattern _ [] [] []
    (fun _ h => absurd h List.not_mem_nil) r h
  intro tok htok
  cases tok with
  | text s => trivial
  | param span => exact hspans span htok
  | wildcard => trivial

/-- A parameter token ready for insertion is a span of the route, with the span's regex text. -/
theorem mem_readyTokens_param {pattern : String} {tokens : List Token} {ready : List ReadyToken}
    (h : Trie.readyTokens pattern tokens = .ok ready) {span : ParamSpan} {constraint : Option Constraint}
    (hmem : .param span constraint ∈ ready) :
    .param span ∈ tokens ∧ constraint.map (·.source) = span.regex := by
  induction tokens generalizing ready with
  | nil =>
    cases h
    cases hmem
  | cons tok toks ih =>
    rw [Trie.readyTokens, List.mapM_cons] at h
    obtain ⟨r, hr, h⟩ := Except.bind_eq_ok.1 h
    obtain ⟨rs, hrs, h⟩ := Except.bind_eq_ok.1 h
    cases h
    rcases List.mem_cons.1 hmem with rfl | hmem
    · -- the token read is the span, with its regex read when it has one
      cases tok with
      | text s => cases hr
      | wildcard => cases hr
      | param span' =>
        simp only at hr
        split at hr
        · rename_i hnone
          cases hr
          exact ⟨List.mem_cons_self, hnone.symm⟩
        · rename_i source hsome
          split at hr
          · cases hr
            exact ⟨List.mem_cons_self, hsome.symm⟩
          · cases hr
    · exact (ih hrs hmem).imp_left (List.mem_cons_of_mem _)

/-- Reading the regexes keeps a suffixed span's regex. -/
theorem readyTokens_regexOfSuffix {pattern : String} {tokens : List Token} {ready : List ReadyToken}
    (htokens : ∀ tok ∈ tokens, tok.RegexOfSuffix) (h : Trie.readyTokens pattern tokens = .ok ready) :
    ∀ tok ∈ ready, tok.RegexOfSuffix := by
  intro tok htok
  cases tok with
  | text s => trivial
  | wildcard => trivial
  | param span constraint =>
    -- the span is the route's, and its constraint is read from its regex text
    obtain ⟨hmem, hsource⟩ := mem_readyTokens_param h htok
    intro hs
    have hregex := htokens _ hmem hs
    rw [← hsource] at hregex
    simpa using hregex

namespace Trie

variable {t t' t₁ t₂ : Trie α}

/-! ## Reading parameter nodes -/

theorem param?_eq_some_iff {x : NodeId} {q : ParamNode} :
    t.param? x = some q ↔ t.kind? x = some (.param q) := by
  unfold param? kind?
  cases h : t.node? x with
  | none => simp
  | some n =>
    obtain ⟨kind, literals, params, wildcard, handlers⟩ := n
    cases kind <;> simp

theorem kind?_push (t : Trie α) (n : Node α) (y : NodeId) :
    (t.push n).1.kind? y = if y = t.nodes.size then some n.kind else t.kind? y := by
  unfold kind?
  rw [node?_push]
  split <;> rfl

theorem kind?_modify (t : Trie α) (x : NodeId) (f : Node α → Node α) (y : NodeId) :
    (t.modify x f).kind? y = if y = x then (t.node? x).map (fun n => (f n).kind) else t.kind? y := by
  unfold kind?
  rw [node?_modify]
  split
  · cases t.node? x <;> rfl
  · rfl

/-! ## Edits that keep the sibling lists -/

/-- `t'` keeps the parameter siblings of `t`: every node of `t'` has no parameter children or
those of the node of `t` with its id, and every parameter node of `t'` was one in `t`, with the
same regex and suffix. -/
structure KeepsSiblings (t t' : Trie α) : Prop where
  params : ∀ x n', t'.node? x = some n' →
    n'.params = [] ∨ ∃ n, t.node? x = some n ∧ n'.params = n.params
  param : ∀ x q', t'.param? x = some q' →
    ∃ q, t.param? x = some q ∧ q'.constraint = q.constraint ∧ q'.suffix = q.suffix

theorem KeepsSiblings.refl (t : Trie α) : KeepsSiblings t t where
  params _ n h := .inr ⟨n, h, rfl⟩
  param _ q h := ⟨q, h, rfl, rfl⟩

theorem KeepsSiblings.trans (h₁ : KeepsSiblings t t₁) (h₂ : KeepsSiblings t₁ t₂) :
    KeepsSiblings t t₂ where
  params x n₂ hn₂ := by
    rcases h₂.params x n₂ hn₂ with hnil | ⟨n₁, hn₁, hp₁⟩
    · exact .inl hnil
    · rcases h₁.params x n₁ hn₁ with hnil | ⟨n, hn, hp⟩
      · exact .inl (hp₁.trans hnil)
      · exact .inr ⟨n, hn, hp₁.trans hp⟩
  param x q₂ hq₂ := by
    obtain ⟨q₁, hq₁, hc₁, hs₁⟩ := h₂.param x q₂ hq₂
    obtain ⟨q, hq, hc, hs⟩ := h₁.param x q₁ hq₁
    exact ⟨q, hq, hc₁.trans hc, hs₁.trans hs⟩

/-- Adding a node that is no parameter node and has no parameter children. -/
theorem keepsSiblings_push (t : Trie α) {n : Node α} (hparams : n.params = [])
    (hkind : ∀ q, n.kind ≠ .param q) : KeepsSiblings t (t.push n).1 where
  params x n' hn' := by
    rw [node?_push] at hn'
    split_ifs at hn' with hx
    · cases hn'
      exact .inl hparams
    · exact .inr ⟨n', hn', rfl⟩
  param x q' hq' := by
    rw [param?_eq_some_iff, kind?_push] at hq'
    split_ifs at hq' with hx
    · exact absurd (Option.some.inj hq') (hkind q')
    · exact ⟨q', param?_eq_some_iff.2 hq', rfl, rfl⟩

/-- Changing a node without touching its parameter children, keeping a parameter node's regex
and suffix. -/
theorem keepsSiblings_modify (t : Trie α) (x : NodeId) {f : Node α → Node α}
    (hparams : ∀ n, (f n).params = n.params)
    (hkind : ∀ n q', (f n).kind = .param q' →
      ∃ q, n.kind = .param q ∧ q'.constraint = q.constraint ∧ q'.suffix = q.suffix) :
    KeepsSiblings t (t.modify x f) where
  params y n' hn' := by
    rw [node?_modify] at hn'
    split_ifs at hn' with hy
    · obtain ⟨n, hn, rfl⟩ := Option.map_eq_some_iff.1 hn'
      exact .inr ⟨n, hy ▸ hn, hparams n⟩
    · exact .inr ⟨n', hn', rfl⟩
  param y q' hq' := by
    rw [param?_eq_some_iff, kind?_modify] at hq'
    split_ifs at hq' with hy
    · obtain ⟨n, hn, hk⟩ := Option.map_eq_some_iff.1 hq'
      obtain ⟨q, hq, hc, hs⟩ := hkind n q' hk
      refine ⟨q, param?_eq_some_iff.2 ?_, hc, hs⟩
      rw [hy, kind?, hn, Option.map_some, hq]
    · exact ⟨q', param?_eq_some_iff.2 hq', rfl, rfl⟩

/-- A change of a node's literal children, wildcard or handlers. -/
theorem keepsSiblings_modify_kind (t : Trie α) (x : NodeId) {f : Node α → Node α}
    (hparams : ∀ n, (f n).params = n.params) (hkind : ∀ n, (f n).kind = n.kind) :
    KeepsSiblings t (t.modify x f) :=
  keepsSiblings_modify t x hparams fun n q' h => ⟨q', (hkind n).symm.trans h, rfl, rfl⟩

/-- Hanging a new literal or wildcard leaf below a node, changing nothing but one of the node's
literal or wildcard slots. -/
theorem keepsSiblings_hang (t : Trie α) (p : NodeId) {K : NodeKind} (hK : ∀ q, K ≠ .param q)
    {g : Node α → Node α} (hparams : ∀ n, (g n).params = n.params) (hkind : ∀ n, (g n).kind = n.kind) :
    KeepsSiblings t ((t.push { kind := K }).1.modify p g) :=
  (keepsSiblings_push t rfl hK).trans (keepsSiblings_modify_kind _ p hparams hkind)

theorem keepsSiblings_split (t : Trie α) (parent child : NodeId) (cut : Nat) :
    KeepsSiblings t (t.split parent child cut).1 := by
  -- the child keeps its id and gets a literal text, the head node is a new literal node without
  -- parameter children, and the parent changes one literal slot
  have hchild : KeepsSiblings t (t.modify child fun n =>
      { n with kind := .literal (String.ofList (Text.dropBytes (t.text child).toList cut)) }) :=
    keepsSiblings_modify t child (fun _ => rfl) (fun _ _ h => by cases h)
  have hhead := fun (lits : List (Char × NodeId)) => hchild.trans (keepsSiblings_push _
    (n := { kind := .literal (String.ofList (Text.takeBytes (t.text child).toList cut))
            literals := lits })
    rfl (fun _ h => by cases h))
  dsimp only [split]
  split
  · exact (hhead _).trans (keepsSiblings_modify_kind _ parent (fun _ => rfl) (fun _ => rfl))
  · exact hhead _

theorem keepsSiblings_literalChild :
    ∀ (fuel : Nat) (t : Trie α) (p : NodeId) (rest : List Char),
      KeepsSiblings t (t.literalChild fuel p rest).1
  | 0, t, p, rest => KeepsSiblings.refl t
  | fuel + 1, t, p, [] => by
    rw [literalChild_nil]
    exact KeepsSiblings.refl t
  | fuel + 1, t, p, first :: more => by
    cases hlook : (t.node? p).bind (fun n => n.literals.lookup first) with
    | none =>
      rw [literalChild_new hlook]
      exact keepsSiblings_hang t p (fun _ h => by cases h) (fun _ => rfl) (fun _ => rfl)
    | some child =>
      -- a split, if the texts diverge inside the child, then the way on from the next node
      rw [literalChild_step hlook]
      dsimp only
      split
      · exact (keepsSiblings_split t p child _).trans (keepsSiblings_literalChild fuel _ _ _)
      · exact keepsSiblings_literalChild fuel t child _

theorem keepsSiblings_wildcardChild (t : Trie α) (p : NodeId) :
    KeepsSiblings t (t.wildcardChild p).1 := by
  unfold wildcardChild
  split
  · exact KeepsSiblings.refl t
  · exact keepsSiblings_hang t p (fun _ h => by cases h) (fun _ => rfl) (fun _ => rfl)

/-! ## The priority invariant -/

/-- `a` may be tried before `b`: when both are parameter nodes, `a` does not sort after `b`. -/
def TriedBefore (t : Trie α) (a b : NodeId) : Prop :=
  ∀ qa qb, t.param? a = some qa → t.param? b = some qb → qa.sortsAfter qb = false

/-- The siblings of parameter nodes are in priority order: no node of a sibling list comes
before one it sorts after. A parameter node with a literal suffix has a regex. -/
structure Prioritised (t : Trie α) : Prop where
  ordered : ∀ p n, t.node? p = some n → n.params.Pairwise t.TriedBefore
  regex_of_suffix : ∀ x q, t.param? x = some q → q.suffix.isSome → q.constraint.isSome

theorem triedBefore_congr {a b : NodeId} (ha : t'.param? a = t.param? a)
    (hb : t'.param? b = t.param? b) : t'.TriedBefore a b ↔ t.TriedBefore a b := by
  unfold TriedBefore
  rw [ha, hb]

theorem KeepsSiblings.triedBefore (h : KeepsSiblings t t') {a b : NodeId} (hab : t.TriedBefore a b) :
    t'.TriedBefore a b := by
  intro qa' qb' ha hb
  obtain ⟨qa, ha₀, hca, hsa⟩ := h.param a qa' ha
  obtain ⟨qb, hb₀, hcb, hsb⟩ := h.param b qb' hb
  rw [ParamNode.sortsAfter_congr ⟨hca, hsa⟩ ⟨hcb, hsb⟩]
  exact hab qa qb ha₀ hb₀

theorem Prioritised.keeps (hP : Prioritised t) (h : KeepsSiblings t t') : Prioritised t' where
  ordered p n' hn' := by
    rcases h.params p n' hn' with hnil | ⟨n, hn, hparams⟩
    · rw [hnil]
      exact .nil
    · rw [hparams]
      exact (hP.ordered p n hn).imp h.triedBefore
  regex_of_suffix x q' hq' hs := by
    obtain ⟨q, hq, hc, hsuf⟩ := h.param x q' hq'
    rw [hc]
    exact hP.regex_of_suffix x q hq (hsuf ▸ hs)

theorem prioritised_empty : Prioritised (Trie.empty : Trie α) where
  ordered p n hn := by
    rw [node?_empty hn]
    exact .nil
  regex_of_suffix x q hq := by
    obtain ⟨n, hn, hk⟩ := kind?_eq_some.1 (param?_eq_some_iff.1 hq)
    rw [node?_empty hn] at hk
    cases hk

/-! ## Adding a parameter span -/

section Hang

variable {ρ : NodeId → List PathStep} {p : NodeId} {n : Node α} {q : ParamNode}
  {g : Node α → Node α}

theorem param?_hang (hp : t.node? p = some n) (hkind : (g n).kind = n.kind) (y : NodeId) :
    ((t.push { kind := .param q }).1.modify p g).param? y =
      if y = t.nodes.size then some q else t.param? y := by
  apply Option.ext
  intro q'
  rw [param?_eq_some_iff, kind?_hang hp hkind]
  split_ifs
  · simp
  · rw [param?_eq_some_iff]

/-- Where a new parameter node `q` goes among the siblings `l`: before the first that sorts after
it, or last. -/
def priorityPosition (t : Trie α) (q : ParamNode) (l : List NodeId) : Nat :=
  (l.findIdx? fun id => ((t.param? id).map (·.sortsAfter q)).getD false).getD l.length

/-- A new parameter sibling keeps the priority order when it goes before the first sibling that
sorts after it. -/
theorem Prioritised.hang_param (hL : t.Labelled ρ) (hP : Prioritised t) (hp : t.node? p = some n)
    (hsuffix : q.suffix.isSome → q.constraint.isSome) :
    Prioritised ((t.push { kind := .param q }).1.modify p fun m =>
      { m with params := m.params.insertIdx (t.priorityPosition q n.params) t.nodes.size }) := by
  have hparam := param?_hang (q := q)
    (g := fun m => { m with params := m.params.insertIdx (t.priorityPosition q n.params) t.nodes.size })
    hp rfl
  -- the old nodes read as before
  have hold : ∀ c, c < t.nodes.size → _ := fun c hc => (hparam c).trans (if_neg (Nat.ne_of_lt hc))
  have hnew := (hparam t.nodes.size).trans (if_pos rfl)
  have hsib : ∀ c ∈ n.params, c < t.nodes.size := fun c hc =>
    hL.child_lt p c (mem_childIds.2 ⟨n, hp, .inr (.inl hc)⟩)
  have hlist : ∀ x m, t.node? x = some m → m.params.Pairwise (TriedBefore _) := fun x m hm =>
    (hP.ordered x m hm).imp_of_mem fun ha hb hab => (triedBefore_congr
      (hold _ (hL.child_lt x _ (mem_childIds.2 ⟨m, hm, .inr (.inl ha)⟩)))
      (hold _ (hL.child_lt x _ (mem_childIds.2 ⟨m, hm, .inr (.inl hb)⟩)))).2 hab
  refine ⟨fun x m hm => ?_, fun x q' hq' hs => ?_⟩
  · rw [node?_hang hp] at hm
    split_ifs at hm with hxp hxs
    · -- the parent: the new node goes before the first sibling that sorts after it
      cases hm
      refine pairwise_insertIdx_findIdx (hlist p n hp) ?_ ?_
      · intro y hy hPy qa qb ha hb
        rw [hold y (hsib y hy)] at ha
        rw [hnew] at hb
        cases hb
        simpa [ha] using hPy
      · intro y hy hPy
        obtain ⟨qy, hqy, hyq⟩ : ∃ qy, t.param? y = some qy ∧ qy.sortsAfter q = true := by
          cases h : t.param? y with
          | none => simp [h] at hPy
          | some qy => exact ⟨qy, rfl, by simpa [h] using hPy⟩
        refine ⟨fun qa qb ha hb => ?_, fun z hyz qa qz ha hz => ?_⟩
        · rw [hnew] at ha
          rw [hold y (hsib y hy), hqy] at hb
          cases ha
          cases hb
          exact ParamNode.sortsAfter_asymm hyq
        · -- what `y` may precede, the new node may precede too
          rw [hnew] at ha
          cases ha
          exact ParamNode.sortsAfter_false_of_sortsAfter hyq
            (hyz qy qz (by rw [hold y (hsib y hy), hqy]) hz)
    · cases hm
      exact .nil
    · exact hlist x m hm
  · rw [hparam] at hq'
    split_ifs at hq' with hx
    · cases hq'
      exact hsuffix hs
    · exact hP.regex_of_suffix x q' hq' hs

end Hang

/-! ## Insertion keeps the priority order -/

variable {ρ : NodeId → List PathStep}

/-- The node a span makes when no sibling has its regex. -/
def spanNode (span : ParamSpan) (constraint : Option Constraint) : ParamNode :=
  { constraint, suffix := span.suffix, sources := [span.source] }

/-- Adding a parameter span either joins the sibling with its regex, an edit that keeps the
sibling lists and every parameter node's regex and suffix, or hangs the node the span makes at its
place in priority order. -/
theorem paramChild_cases {p : NodeId} {n : Node α} (hp : t.node? p = some n) (span : ParamSpan)
    (constraint : Option Constraint) :
    KeepsSiblings t (t.paramChild p span constraint).1 ∨
      (t.paramChild p span constraint).1 =
        ((t.push { kind := .param (spanNode span constraint) }).1.modify p fun m =>
          { m with
            params := m.params.insertIdx (t.priorityPosition (spanNode span constraint) n.params)
              t.nodes.size }) := by
  unfold Trie.paramChild
  simp only [hp, Option.map_some, Option.getD_some]
  split
  · -- the merge records the span's text and nothing else
    refine .inl (keepsSiblings_modify _ _ (fun m => ?_) (fun m q' hq' => ?_))
    · split
      · split <;> rfl
      · rfl
    · split at hq'
      · rename_i r hr
        split at hq'
        · exact ⟨q', hq', rfl, rfl⟩
        · cases hq'
          exact ⟨r, hr, rfl, rfl⟩
      · exact ⟨q', hq', rfl, rfl⟩
  · exact .inr rfl

/-- A parameter span joins the sibling with its regex, which keeps its regex and suffix, or
becomes a new sibling in priority order. -/
theorem Prioritised.paramChild (hL : t.Labelled ρ) (hP : Prioritised t) {p : NodeId} {n : Node α}
    (hp : t.node? p = some n) (span : ParamSpan) (constraint : Option Constraint)
    (hsuffix : span.suffix.isSome → constraint.isSome) :
    Prioritised (t.paramChild p span constraint).1 := by
  rcases paramChild_cases hp span constraint with hkeep | heq
  · exact hP.keeps hkeep
  · rw [heq]
    exact hP.hang_param hL hp hsuffix

theorem Prioritised.descend (hL : t.Labelled ρ) (hP : Prioritised t) {p : NodeId}
    (hp : p < t.nodes.size) (tok : ReadyToken) (htok : tok.RegexOfSuffix) :
    Prioritised (t.descend p tok).1 := by
  cases tok with
  | text s => exact hP.keeps (keepsSiblings_literalChild _ t p _)
  | param span constraint =>
    obtain ⟨n, hn⟩ := node?_of_lt hp
    exact hP.paramChild hL hn span constraint htok
  | wildcard => exact hP.keeps (keepsSiblings_wildcardChild t p)

/-- Following tokens keeps the priority order; the labelling carried along keeps every node that
is reached in the arena. -/
theorem Prioritised.foldl_descend (toks : List ReadyToken) (hparsed : ∀ tok ∈ toks, tok.Parsed)
    (hsuffix : ∀ tok ∈ toks, tok.RegexOfSuffix) (acc : Trie α × NodeId)
    (hL : acc.1.Labelled ρ) (hp : acc.2 < acc.1.nodes.size) (hP : Prioritised acc.1) :
    Prioritised (toks.foldl (fun acc tok => acc.1.descend acc.2 tok) acc).1 := by
  induction toks generalizing acc ρ with
  | nil => exact hP
  | cons tok toks ih =>
    obtain ⟨ρ₁, h₁⟩ := descend_reached hL hp tok (hparsed tok List.mem_cons_self)
    exact ih (fun tok h => hparsed tok (List.mem_cons_of_mem _ h))
      (fun tok h => hsuffix tok (List.mem_cons_of_mem _ h)) _ h₁.labelled h₁.target_lt
      (hP.descend hL hp tok (hsuffix tok List.mem_cons_self))

/-- An insertion of a route whose suffixed spans have regexes keeps the priority order. -/
theorem Prioritised.insert (hL : t.Labelled ρ) (hP : Prioritised t) {method pattern : String}
    {route : Route} {value : α} {last : NodeId} (hroute : ∀ tok ∈ route.tokens, tok.RegexOfSuffix)
    (h : t.insert method pattern route value = .ok (t', last)) : Prioritised t' := by
  unfold Trie.insert at h
  obtain ⟨ready, hready, h⟩ := Except.bind_eq_ok.1 h
  have hP₁ := hP.foldl_descend ready (readyTokens_ok hready).2 (readyTokens_regexOfSuffix hroute hready)
    (t, rootId) hL hL.root_lt
  generalize ready.foldl (fun acc tok => acc.1.descend acc.2 tok) (t, rootId) = res at h hP₁
  cases h
  exact hP₁.keeps (keepsSiblings_modify_kind _ _ (fun _ => rfl) (fun _ => rfl))

/-! ## Tries built by insertions -/

theorem BuiltBy.prioritised {L : List (Insertion α)} (h : t.BuiltBy L)
    (hroutes : ∀ e ∈ L, ∀ tok ∈ e.route.tokens, tok.RegexOfSuffix) : Prioritised t := by
  induction h with
  | empty => exact prioritised_empty
  | @insert t t' L e last hbuilt hins ih =>
    obtain ⟨ρ, hR⟩ := hbuilt.registry
    exact (ih fun e' he' => hroutes e' (List.mem_append_left _ he')).insert hR.labelled
      (hroutes e (List.mem_append_right _ (List.mem_singleton_self e))) hins

end Trie

namespace Router

open Trie

variable {r : Router α}

/-- The trie of every reachable router has its parameter siblings in priority order. -/
theorem Reachable.prioritised {c : Config} (h : Reachable c r) : r.trie.Prioritised := by
  obtain ⟨L, hbuilt, htemplates⟩ := h.builtBy_templates
  exact hbuilt.prioritised fun e he => ofTemplate_regexOfSuffix (htemplates e he)

/-- The parameter children of a node have pairwise different signatures: each child's own step
is its signature, and the children of a node begin with different steps. -/
theorem params_signatures {ρ : NodeId → List PathStep} (hL : r.trie.Labelled ρ) {p : NodeId}
    {n : Node α} (hn : r.trie.node? p = some n) :
    n.params.Pairwise fun a b => ∀ qa qb, r.trie.param? a = some qa → r.trie.param? b = some qb →
      qa.signature ≠ qb.signature := by
  have hfirst := hL.first_steps p
  rw [childIds_of_node? hn, Node.childList] at hfirst
  have hsub : List.Sublist n.params (n.literals.map (·.2) ++ n.params ++ n.wildcard.toList) :=
    (List.sublist_append_right _ _).trans (List.sublist_append_left _ _)
  have hnodup := List.pairwise_map.1 (hfirst.sublist (hsub.map _))
  refine hnodup.imp fun hab qa qb ha hb hsig => hab ?_
  rw [ownSteps_of_kind (param?_eq_some_iff.1 ha), ownSteps_of_kind (param?_eq_some_iff.1 hb)]
  simp [NodeKind.steps, hsig]

/-- For every router reached by additions, successful or refused, and every node of its trie:
the node's parameter children are parameter nodes with pairwise different signatures, and no
child comes before a later sibling it sorts after. Hence, whatever order the routes were added
in, a child with a regex comes before one without, a child with a regex and a literal suffix
before one with a regex alone, and a child whose suffix is longer than a sibling's and ends
with it before that sibling. -/
theorem paramChildren_in_priority_order {c : Config} (h : Reachable c r) {p : NodeId}
    {n : Node α} (hn : r.trie.node? p = some n) :
    n.params.Pairwise (fun a b => ∃ qa qb, r.trie.param? a = some qa ∧ r.trie.param? b = some qb ∧
      qa.signature ≠ qb.signature ∧ qa.sortsAfter qb = false) ∧
    ∀ a ∈ n.params, ∀ b ∈ n.params, ∀ qa qb, r.trie.param? a = some qa → r.trie.param? b = some qb →
      (qa.constraint.isSome ∧ qb.constraint = none ∨
        qa.constraint.isSome ∧ qa.suffix.isSome ∧ qb.constraint.isSome ∧ qb.suffix = none ∨
        ∃ o s, qa.suffix = some o ∧ qb.suffix = some s ∧ s.length < o.length ∧ s.toList <:+ o.toList) →
      List.Sublist [a, b] n.params := by
  obtain ⟨L, hL, -⟩ := h.builtBy
  obtain ⟨ρ, hR⟩ := hL.registry
  have hP := h.prioritised
  have hparam : ∀ x ∈ n.params, ∃ q, r.trie.param? x = some q := fun x hx => by
    obtain ⟨q, hq⟩ := hR.labelled.param_slot p n hn x hx
    exact ⟨q, param?_eq_some_iff.2 hq⟩
  refine ⟨((params_signatures hR.labelled hn).and (hP.ordered p n hn)).imp_of_mem ?_, ?_⟩
  · intro a b ha hb ⟨hsig, hord⟩
    obtain ⟨qa, hqa⟩ := hparam a ha
    obtain ⟨qb, hqb⟩ := hparam b hb
    exact ⟨qa, qb, hqa, hqb, hsig qa qb hqa hqb, hord qa qb hqa hqb⟩
  · intro a ha b hb qa qb hqa hqb hprec
    have hafter := ParamNode.sortsAfter_of_precedes (hP.regex_of_suffix a qa hqa)
      (hP.regex_of_suffix b qb hqb) hprec
    have hab : a ≠ b := by
      rintro rfl
      rw [hqa] at hqb
      cases hqb
      rw [ParamNode.sortsAfter_irrefl] at hafter
      cases hafter
    -- the other order would put `b` before a sibling it sorts after
    rcases pair_sublist_or ha hb hab with hsub | hsub
    · exact hsub
    · have hba := List.rel_of_pairwise_cons ((hP.ordered p n hn).sublist hsub) (List.mem_singleton_self a)
      rw [hba qb qa hqb hqa] at hafter
      cases hafter

/-- Adding a span with a regex after an unconstrained one below the same node puts the new
child first. -/
theorem constrained_span_goes_first :
    let r := (((Router.new {} : Router Nat).add "GET" "/f/:name" 0).1.add "GET" "/f/:id\x7b[0-9]+\x7d" 1).1
    Reachable {} r ∧ ∃ n, r.trie.node? 1 = some n ∧ n.params = [3, 2] ∧
    (n.params.Pairwise (fun a b => ∃ qa qb, r.trie.param? a = some qa ∧ r.trie.param? b = some qb ∧
      qa.signature ≠ qb.signature ∧ qa.sortsAfter qb = false) ∧
    ∀ a ∈ n.params, ∀ b ∈ n.params, ∀ qa qb, r.trie.param? a = some qa → r.trie.param? b = some qb →
      (qa.constraint.isSome ∧ qb.constraint = none ∨
        qa.constraint.isSome ∧ qa.suffix.isSome ∧ qb.constraint.isSome ∧ qb.suffix = none ∨
        ∃ o s, qa.suffix = some o ∧ qb.suffix = some s ∧ s.length < o.length ∧ s.toList <:+ o.toList) →
      List.Sublist [a, b] n.params) := by
  intro r
  have hr : Reachable {} r := .add _ _ _ (.add _ _ _ .new)
  have hnode : (r.trie.node? 1).map (·.params) = some [3, 2] := by decide +kernel
  obtain ⟨n, hn, hparams⟩ := Option.map_eq_some_iff.1 hnode
  exact ⟨hr, n, hn, hparams, paramChildren_in_priority_order hr hn⟩

end Router

end Routing
