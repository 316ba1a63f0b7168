import Routing.Proofs.Template.Suffix
import Routing.Proofs.Trie.Unfolded
/-!
# Parameter siblings whatever the order of insertion

A parameter node keeps the regex text and the suffix of the span that made it
(`BuiltBy.param_origin`). Since a regex text writes its span's suffix, every span with the regex of
a node makes a node with the node's regex and suffix (`BuiltBy.spanNode_data`), so whether one
signature goes before another is a matter of the spans of the log alone (`Precedes`). Every sibling
list follows it (`paramOrder_pairwise`), and below a path the signatures listed are those whose
step leads on to a route (`Registry.mem_paramOrder`). When the log's spans that become siblings
are comparable by priority or share a regex (`Comparable`), two tries built from the same
insertions in any orders therefore list the same signatures below every path in the same order
(`paramOrder_eq_of_perm`).
-/

namespace Routing

open Routing.Regex

variable {α : Type}

namespace Trie

variable {t t' : Trie α}

/-- A parameter node after adding a span is one of the trie before, with its regex and suffix,
or the node the span makes. -/
theorem param?_paramChild {p : NodeId} {n : Node α} (hp : t.node? p = some n) (span : ParamSpan)
    (constraint : Option Constraint) {x : NodeId} {q' : ParamNode}
    (h : (t.paramChild p span constraint).1.param? x = some q') :
    (∃ q, t.param? x = some q ∧ q'.constraint = q.constraint ∧ q'.suffix = q.suffix) ∨
      q'.constraint = constraint ∧ q'.suffix = span.suffix := by
  rcases paramChild_cases hp span constraint with hkeep | heq
  · exact .inl (hkeep.param x q' h)
  · rw [heq, param?_hang hp rfl] at h
    split_ifs at h
    · cases h
      exact .inr ⟨rfl, rfl⟩
    · exact .inl ⟨q', h, rfl, rfl⟩

theorem param?_descend {p : NodeId} (hp : p < t.nodes.size) (tok : ReadyToken) {x : NodeId}
    {q' : ParamNode} (h : (t.descend p tok).1.param? x = some q') :
    (∃ q, t.param? x = some q ∧ q'.constraint = q.constraint ∧ q'.suffix = q.suffix) ∨
      ∃ span constraint, tok = .param span constraint ∧ q'.constraint = constraint ∧
        q'.suffix = span.suffix := by
  cases tok with
  | text s => exact .inl ((keepsSiblings_literalChild _ t p _).param x q' h)
  | param span constraint =>
    obtain ⟨n, hn⟩ := node?_of_lt hp
    exact (param?_paramChild hn span constraint h).imp_right fun h' => ⟨span, constraint, rfl, h'⟩
  | wildcard => exact .inl ((keepsSiblings_wildcardChild t p).param x q' h)

/-- A parameter node after following tokens is one of the trie before, with its regex and suffix,
or was made by a parameter token followed. -/
theorem param?_foldl_descend {ρ : NodeId → List PathStep} (toks : List ReadyToken)
    (hparsed : ∀ tok ∈ toks, tok.Parsed) (acc : Trie α × NodeId) (hL : acc.1.Labelled ρ)
    (hp : acc.2 < acc.1.nodes.size) {x : NodeId} {q' : ParamNode}
    (h : (toks.foldl (fun acc tok => acc.1.descend acc.2 tok) acc).1.param? x = some q') :
    (∃ q, acc.1.param? x = some q ∧ q'.constraint = q.constraint ∧ q'.suffix = q.suffix) ∨
      ∃ span constraint, .param span constraint ∈ toks ∧ q'.constraint = constraint ∧
        q'.suffix = span.suffix := by
  induction toks generalizing acc ρ with
  | nil => exact .inl ⟨q', h, rfl, rfl⟩
  | cons tok toks ih =>
    obtain ⟨ρ₁, h₁⟩ := descend_reached hL hp tok (hparsed tok List.mem_cons_self)
    rcases ih (fun tok h => hparsed tok (List.mem_cons_of_mem _ h)) _ h₁.labelled h₁.target_lt h with
      ⟨q₁, hq₁, hc₁, hs₁⟩ | ⟨span, c, hmem, hc, hs⟩
    · rcases param?_descend hp tok hq₁ with ⟨q, hq, hc, hs⟩ | ⟨span, c, rfl, hc, hs⟩
      · exact .inl ⟨q, hq, hc₁.trans hc, hs₁.trans hs⟩
      · exact .inr ⟨span, c, List.mem_cons_self, hc₁.trans hc, hs₁.trans hs⟩
    · exact .inr ⟨span, c, List.mem_cons_of_mem _ hmem, hc, hs⟩

/-- A parameter node after an insertion is one of the trie before, with its regex and suffix, or
has the regex text and suffix of a span of the route. -/
theorem param?_insert {ρ : NodeId → List PathStep} (hL : t.Labelled ρ) {method pattern : String}
    {route : Route} {value : α} {last : NodeId} (h : t.insert method pattern route value = .ok (t', last))
    {x : NodeId} {q' : ParamNode} (hq' : t'.param? x = some q') :
    (∃ q, t.param? x = some q ∧ q'.constraint = q.constraint ∧ q'.suffix = q.suffix) ∨
      ∃ span, .param span ∈ route.tokens ∧ q'.signature = span.regex ∧ q'.suffix = span.suffix := by
  unfold Trie.insert at h
  obtain ⟨ready, hready, h⟩ := Except.bind_eq_ok.1 h
  generalize hres : ready.foldl (fun acc tok => acc.1.descend acc.2 tok) (t, rootId) = res at h
  cases h
  -- the handler goes into the last node, which keeps its kind
  have hkeep := keepsSiblings_modify_kind res.1 res.2
    (f := fun n => { n with handlers := some ((n.handlers.getD .empty).push method
      { value, params := { names := route.params } }) }) (fun _ => rfl) (fun _ => rfl)
  obtain ⟨q₁, hq₁, hc₁, hs₁⟩ := hkeep.param x q' hq'
  rw [← hres] at hq₁
  rcases param?_foldl_descend ready (readyTokens_ok hready).2 (t, rootId) hL hL.root_lt hq₁ with
    ⟨q, hq, hc, hs⟩ | ⟨span, c, hmem, hc, hs⟩
  · exact .inl ⟨q, hq, hc₁.trans hc, hs₁.trans hs⟩
  · obtain ⟨hspan, hsource⟩ := mem_readyTokens_param hready hmem
    refine .inr ⟨span, hspan, ?_, hs₁.trans hs⟩
    rw [ParamNode.signature, hc₁, hc, hsource]

/-- Every parameter node of a trie built by insertions has the regex text and suffix of a span of
a route of the log. -/
theorem BuiltBy.param_origin {L : List (Insertion α)} (hb : t.BuiltBy L) {x : NodeId} {q : ParamNode}
    (hq : t.param? x = some q) :
    ∃ e ∈ L, ∃ span, .param span ∈ e.route.tokens ∧ q.signature = span.regex ∧ q.suffix = span.suffix := by
  induction hb generalizing x q with
  | empty =>
    obtain ⟨n, hn, hk⟩ := kind?_eq_some.1 (param?_eq_some_iff.1 hq)
    rw [node?_empty hn] at hk
    cases hk
  | @insert t t' L e last hbuilt hins ih =>
    obtain ⟨ρ, hR⟩ := hbuilt.registry
    rcases param?_insert hR.labelled hins hq with ⟨q₀, hq₀, hc, hs⟩ | ⟨span, hspan, hsig, hs⟩
    · obtain ⟨e', he', span, hspan, hsig, hsuf⟩ := ih hq₀
      refine ⟨e', List.mem_append_left _ he', span, hspan, ?_, hs.trans hsuf⟩
      rw [ParamNode.signature, hc, ← hsig, ParamNode.signature]
    · exact ⟨e, List.mem_append_right _ (List.mem_singleton_self e), span, hspan, hsig, hs⟩

end Trie

/-- The node a span makes, its regex read: what insertion hangs below the parent when no sibling
has the span's regex. -/
def ParamSpan.node (span : ParamSpan) : ParamNode :=
  Trie.spanNode span
    (span.regex.bind fun source => (Pattern.parse source).toOption.map fun regex => { source, regex })

/-- A token whose steps hold a parameter step is a span, and the step is its only one. -/
theorem Token.param_of_rootPath {tok : Token} {π c : List PathStep} {a : Option String}
    (h : tok.rootPath = π ++ .param a :: c) : π = [] ∧ ∃ span, tok = .param span ∧ span.regex = a := by
  cases tok with
  | text s =>
    have hmem : PathStep.param a ∈ (Token.text s).rootPath := by simp [h]
    simp [Token.rootPath] at hmem
  | param span =>
    cases π with
    | nil =>
      simp only [Token.rootPath, List.nil_append, List.cons.injEq, PathStep.param.injEq] at h
      exact ⟨rfl, span, rfl, h.1⟩
    | cons p π => simp [Token.rootPath] at h
  | wildcard => cases π <;> simp [Token.rootPath] at h

/-- A parameter step of a route's root path is the step of one of its spans, after the tokens
whose steps come before it. -/
theorem Route.span_of_prefix {toks : List Token} {π : List PathStep} {a : Option String}
    (h : π ++ [.param a] <+: toks.flatMap Token.rootPath) :
    ∃ pre span post, toks = pre ++ .param span :: post ∧ pre.flatMap Token.rootPath = π ∧
      span.regex = a := by
  induction toks generalizing π with
  | nil => simp at h
  | cons tok toks ih =>
    obtain ⟨u, hu⟩ := h
    rw [List.flatMap_cons, List.append_assoc, List.singleton_append] at hu
    rcases List.append_eq_append_iff.1 hu with ⟨c', htok, hc'⟩ | ⟨a', hπ, hrest⟩
    · cases c' with
      | nil =>
        -- the step comes right after the token
        obtain ⟨pre, span, post, rfl, hpre, hspan⟩ := @ih [] ⟨u, by simpa using hc'⟩
        refine ⟨tok :: pre, span, post, rfl, ?_, hspan⟩
        rw [List.flatMap_cons, hpre, List.append_nil, htok, List.append_nil]
      | cons c₀ c'' =>
        -- the step is the token's own
        obtain ⟨rfl, -⟩ := List.cons.inj hc'
        obtain ⟨rfl, span, rfl, hspan⟩ := Token.param_of_rootPath htok
        exact ⟨[], span, toks, rfl, rfl, hspan⟩
    · -- the step lies past the token: the rest of the route has it
      obtain ⟨pre, span, post, rfl, hpre, hspan⟩ := ih ⟨u, by rw [List.append_assoc, hrest]; rfl⟩
      exact ⟨tok :: pre, span, post, rfl, by rw [List.flatMap_cons, hpre, hπ], hspan⟩

/-- A parameter step that leads on from a path to a route of a log is the step of a span of the
log, after tokens whose steps spell the path. -/
theorem span_of_leadsTo {L : List (Insertion α)} {π : List PathStep} {a : Option String}
    (h : Unfolded.leadsTo L (π ++ [.param a]) = true) :
    ∃ e ∈ L, ∃ pre span post, e.route.tokens = pre ++ .param span :: post ∧
      pre.flatMap Token.rootPath = π ∧ span.regex = a := by
  obtain ⟨e, he, hpre⟩ := Unfolded.leadsTo_iff.1 h
  exact ⟨e, he, Route.span_of_prefix hpre⟩

namespace Trie

variable {t : Trie α} {ρ : NodeId → List PathStep} {L : List (Insertion α)}

/-- Every span of the log with the regex of a parameter node makes a node with the node's regex
and suffix: the regex text is read the same way, and it writes one suffix. -/
theorem BuiltBy.spanNode_data (hb : t.BuiltBy L) (hL : t.Labelled ρ)
    (htemplates : ∀ e ∈ L, Route.ofTemplate e.pattern = .ok e.route) {x : NodeId} {q : ParamNode}
    (hq : t.param? x = some q) {e : Insertion α} (he : e ∈ L) {span : ParamSpan}
    (hspan : .param span ∈ e.route.tokens) (hsig : span.regex = q.signature) :
    span.node.constraint = q.constraint ∧ span.node.suffix = q.suffix := by
  obtain ⟨e₀, he₀, span₀, hspan₀, hsig₀, hsuf₀⟩ := hb.param_origin hq
  constructor
  · cases hc : q.constraint with
    | none =>
      have hnone : span.regex = none := by rw [hsig, ParamNode.signature, hc]; rfl
      simp [ParamSpan.node, spanNode, hnone]
    | some c =>
      have hregex : span.regex = some c.source := by rw [hsig, ParamNode.signature, hc]; rfl
      have hparse := hL.param_regex x q c (param?_eq_some_iff.1 hq) hc
      simp [ParamSpan.node, spanNode, hregex, hparse, Except.toOption]
  · -- both spans' regex texts write their suffix
    have h₁ := ofTemplate_suffixIn (htemplates e he) span hspan
    have h₂ := ofTemplate_suffixIn (htemplates e₀ he₀) span₀ hspan₀
    rw [hsig, hsig₀] at h₁
    rw [hsuf₀]
    exact h₁.unique h₂

/-- The log lets the signature `a` go before `b`: no span of the log with the regex `a` makes a
node that sorts after the node a span with the regex `b` makes. -/
def Precedes (L : List (Insertion α)) (a b : Option String) : Prop :=
  ∀ e₁ ∈ L, ∀ e₂ ∈ L, ∀ sa sb, .param sa ∈ e₁.route.tokens → .param sb ∈ e₂.route.tokens →
    sa.regex = a → sb.regex = b → sa.node.sortsAfter sb.node = false

/-- Two spans of a log that become siblings: each in a route of the log, after tokens with the
same root path. -/
def Siblings (L : List (Insertion α)) (a b : ParamSpan) : Prop :=
  ∃ e₁ ∈ L, ∃ e₂ ∈ L, ∃ pre₁ post₁ pre₂ post₂, e₁.route.tokens = pre₁ ++ .param a :: post₁ ∧
    e₂.route.tokens = pre₂ ++ .param b :: post₂ ∧
    pre₁.flatMap Token.rootPath = pre₂.flatMap Token.rootPath

/-- Every two spans of a log that become siblings share a regex, or one of their nodes sorts
after the other. -/
def Comparable (L : List (Insertion α)) : Prop :=
  ∀ a b, Siblings L a b → a.regex = b.regex ∨ a.node.sortsAfter b.node = true ∨
    b.node.sortsAfter a.node = true

/-- The parameter spans of a log's routes. -/
def spans (L : List (Insertion α)) : List ParamSpan :=
  L.flatMap fun e => e.route.tokens.filterMap fun
    | .param span => some span
    | _ => none

theorem mem_spans {span : ParamSpan} : span ∈ spans L ↔ ∃ e ∈ L, .param span ∈ e.route.tokens := by
  simp only [spans, List.mem_flatMap, List.mem_filterMap]
  constructor
  · rintro ⟨e, he, tok, htok, hspan⟩
    cases tok <;> simp only [reduceCtorEq, Option.some.injEq] at hspan
    exact ⟨e, he, hspan ▸ htok⟩
  · rintro ⟨e, he, htok⟩
    exact ⟨e, he, _, htok, rfl⟩

/-- Every two spans of a log share a regex or are ordered by priority, siblings or not: a check
that runs, and that gives `Comparable`. -/
def allComparable (L : List (Insertion α)) : Bool :=
  (spans L).all fun a => (spans L).all fun b =>
    a.regex == b.regex || a.node.sortsAfter b.node || b.node.sortsAfter a.node

theorem comparable_of_allComparable (h : allComparable L = true) : Comparable L := by
  rintro a b ⟨e₁, he₁, e₂, he₂, pre₁, post₁, pre₂, post₂, htok₁, htok₂, -⟩
  have ha : a ∈ spans L := mem_spans.2 ⟨e₁, he₁, by simp [htok₁]⟩
  have hb : b ∈ spans L := mem_spans.2 ⟨e₂, he₂, by simp [htok₂]⟩
  have hab := List.all_eq_true.1 (List.all_eq_true.1 h a ha) b hb
  simpa only [Bool.or_eq_true, beq_iff_eq, or_assoc] using hab

/-- The signatures below every path are listed in an order the log lets them go in. -/
theorem Registry.paramOrder_pairwise (hR : Registry t ρ L) (hb : t.BuiltBy L)
    (htemplates : ∀ e ∈ L, Route.ofTemplate e.pattern = .ok e.route) (π : List PathStep) :
    (t.paramOrder π).Pairwise (Precedes L) := by
  have hL := hR.labelled
  have hP := hb.prioritised fun e he => ofTemplate_regexOfSuffix (htemplates e he)
  cases hx : t.nodeAt? π with
  | none => simp [paramOrder, hx]
  | some x =>
    obtain ⟨hxs, rfl⟩ := hL.nodeAt?_eq_some.1 hx
    obtain ⟨n, hn⟩ := node?_of_lt hxs
    rw [hL.paramOrder_eq hn]
    refine List.pairwise_filterMap.2 ((hP.ordered x n hn).imp fun {c c'} hcc' a ha b hb' => ?_)
    obtain ⟨q, hq, rfl⟩ := Option.map_eq_some_iff.1 ha
    obtain ⟨q', hq', rfl⟩ := Option.map_eq_some_iff.1 hb'
    intro e₁ he₁ e₂ he₂ sa sb hsa hsb hra hrb
    rw [ParamNode.sortsAfter_congr (hb.spanNode_data hL htemplates hq he₁ hsa hra)
      (hb.spanNode_data hL htemplates hq' he₂ hsb hrb)]
    exact hcc' q q' hq hq'

theorem precedes_perm {L L' : List (Insertion α)} (h : L.Perm L') : Precedes L = Precedes L' := by
  funext a b
  simp only [Precedes, h.mem_iff]

/-- Two tries built from one log in two orders list the signatures below each path in one order,
when the log's sibling spans are comparable: both lists hold the signatures that lead on from the
path, once each, in an order the log lets them go in, and two signatures that may each go before
the other are one. -/
theorem paramOrder_eq_of_perm {t₁ t₂ : Trie α} {L₁ L₂ : List (Insertion α)}
    (hb₁ : t₁.BuiltBy L₁) (hb₂ : t₂.BuiltBy L₂) (hperm : L₁.Perm L₂)
    (htemplates : ∀ e ∈ L₁, Route.ofTemplate e.pattern = .ok e.route) (hcmp : Comparable L₁)
    (π : List PathStep) : t₁.paramOrder π = t₂.paramOrder π := by
  obtain ⟨ρ₁, hR₁⟩ := hb₁.registry
  obtain ⟨ρ₂, hR₂⟩ := hb₂.registry
  have htemplates₂ : ∀ e ∈ L₂, Route.ofTemplate e.pattern = .ok e.route :=
    fun e he => htemplates e (hperm.mem_iff.2 he)
  have hmem : ∀ a, a ∈ t₁.paramOrder π ↔ a ∈ t₂.paramOrder π := by
    intro a
    rw [hR₁.mem_paramOrder, hR₂.mem_paramOrder, Unfolded.leadsTo_perm hperm]
  have hpair₂ := hR₂.paramOrder_pairwise hb₂ htemplates₂ π
  rw [← precedes_perm hperm] at hpair₂
  refine List.Perm.eq_of_pairwise ?_ (hR₁.paramOrder_pairwise hb₁ htemplates π) hpair₂
    ((List.perm_ext_iff_of_nodup (hR₁.labelled.paramOrder_nodup π)
      (hR₂.labelled.paramOrder_nodup π)).2 hmem)
  -- the spans behind two listed signatures are siblings, so one sorts after the other
  intro a b ha hb hab hba
  obtain ⟨e₁, he₁, pre₁, sa, post₁, htok₁, hpre₁, hra⟩ := span_of_leadsTo (hR₁.mem_paramOrder.1 ha)
  obtain ⟨e₂, he₂, pre₂, sb, post₂, htok₂, hpre₂, hrb⟩ :=
    span_of_leadsTo (hR₁.mem_paramOrder.1 ((hmem b).2 hb))
  have hsa : .param sa ∈ e₁.route.tokens := by simp [htok₁]
  have hsb : .param sb ∈ e₂.route.tokens := by simp [htok₂]
  rcases hcmp sa sb ⟨e₁, he₁, e₂, he₂, pre₁, post₁, pre₂, post₂, htok₁, htok₂,
      hpre₁.trans hpre₂.symm⟩ with h | h | h
  · rw [← hra, ← hrb, h]
  · rw [hab e₁ he₁ e₂ he₂ sa sb hsa hsb hra hrb] at h
    cases h
  · rw [hba e₂ he₂ e₁ he₁ sb sa hsb hsa hrb hra] at h
    cases h

end Trie

end Routing
