import Routing.Proofs.Regex.Chain
import Routing.Proofs.Template.Lossless
import Routing.Template.PathValues
/-!
# Chained parameters parse their segment

A parameter span may chain unconstrained parameters with literal text between them and after
the last, as in `:hour-:minute` or `:file.:ext`. The reader writes the span's regex: the first
parameter matches lazily, each later one matches the literal before it or a run in which that
literal does not start, and the literals stand quoted between the groups
(`readSpan_chainedSpan`). That text reads as `chainPattern`, so the span works as a parser of
its segment (`chained_span_reads_its_values`): the values it gives lay the segment out with the
literals after them, and values free of line feeds and of the literals' characters, laid out so,
are given back exactly. A single parameter with nothing after it has no regex, and its value is
the whole segment.
-/

namespace Routing

open Routing.Regex

/-! ## Spans of unconstrained parameters -/

/-- An unconstrained parameter as a span writes it: its name, then the literal text after it,
which starts with a character that ends the name. -/
structure PlainParam where
  name : List Char
  literal : List Char
  name_plain : ∀ c ∈ name, endsParamName c = false
  literal_inside : '/' ∉ literal ∧ '*' ∉ literal
  literal_head : ∀ c ∈ literal.head?, c = '-' ∨ c = '.' ∨ c = ':'
  /-- Without a name, a literal that starts with `:` would be read with the `:` before it as a
  literal colon. -/
  colon_named : name = [] → literal.head? ≠ some ':'

/-- The template text of a parameter: its name, then its literal with `:` doubled. -/
def PlainParam.spelling (p : PlainParam) : List Char := p.name ++ spellLiteral p.literal

/-- A span of unconstrained parameters. Each parameter but the last is followed by a separator
that is not empty; the last one's literal is the span's suffix, possibly empty. -/
structure ChainedSpan where
  params : List PlainParam
  nonempty : params ≠ []
  separators : ∀ p ∈ params.dropLast, p.literal ≠ []

namespace ChainedSpan

/-- The span's text after its `:`: the parameters' texts joined by `:`. -/
def spelling (c : ChainedSpan) : List Char := [':'].intercalate (c.params.map PlainParam.spelling)

def names (c : ChainedSpan) : List String := c.params.map fun p => String.ofList p.name

/-- The literal after each parameter: the separators, then the suffix. -/
def literals (c : ChainedSpan) : List (List Char) := c.params.map PlainParam.literal

end ChainedSpan

/-- A span reads a segment as values laid out with the literals `ds` after them: the values it
gives are such a layout of the segment, and values free of line feeds and of the literals'
characters, laid out so, are given back. -/
structure ParamSpan.ReadsAs (span : ParamSpan) (ds : List (List Char)) : Prop where
  sound : ∀ segment values, span.valuesOf? segment = some values →
    ∃ vs : List (List Char), vs.length = ds.length ∧ values = vs.map String.ofList ∧
      segment.toList = interleave vs ds
  complete : ∀ vs : List (List Char), vs.length = ds.length →
    (∀ v ∈ vs, ∀ c ∈ v, c ≠ '\n' ∧ ∀ d ∈ ds, c ∉ d) →
    span.valuesOf? (String.ofList (interleave vs ds)) = some (vs.map String.ofList)

/-- Without a regex a span gives the whole segment as its one value. -/
theorem readsAs_of_regex_none {span : ParamSpan} (h : span.regex = none) : span.ReadsAs [[]] where
  sound segment values hv := by
    simp only [ParamSpan.valuesOf?, segmentValues?, h, Option.some.injEq] at hv
    exact ⟨[segment.toList], rfl, by simp [← hv], by simp [interleave]⟩
  complete vs hlen _ := by
    obtain ⟨v, rfl⟩ := List.length_eq_one_iff.1 hlen
    simp [ParamSpan.valuesOf?, segmentValues?, h, interleave]

/-- A span whose regex splits its segment at `ds` reads the segment as values laid out so. -/
theorem Pattern.SplitsAt.readsAs {span : ParamSpan} {source : String} {P : Pattern}
    {ds : List (List Char)} (h : span.regex = some source) (hP : Pattern.parse source = .ok P)
    (hs : P.SplitsAt ds) : span.ReadsAs ds where
  sound segment values hv := by
    simp only [ParamSpan.valuesOf?, segmentValues?, h, hP, Pattern.groupValues?_backtracking,
      Option.map_eq_some_iff] at hv
    obtain ⟨groups, hgroups, rfl⟩ := hv
    obtain ⟨vs, hlen, rfl, hseg⟩ := hs.sound segment groups hgroups
    exact ⟨vs, hlen, by simp, hseg⟩
  complete vs hlen hfree := by
    simp [ParamSpan.valuesOf?, segmentValues?, h, hP, hs.complete vs hlen hfree]

/-! ## Reading one parameter -/

/-- The regex read so far after an unconstrained parameter and its literal. -/
def SpanRegex.plainParam (st : SpanRegex) (p : PlainParam) : SpanRegex :=
  let sep := quote (String.ofList p.literal)
  { st with
    body := st.body ++ st.plainGroup ++ sep
    needed := st.needed || !p.literal.isEmpty
    lazyNext := false
    separator := sep
    names := st.names ++ [String.ofList p.name] }

theorem head?_spellLiteral (l : List Char) : (spellLiteral l).head? = l.head? := by
  cases l with
  | nil => rfl
  | cons c l => by_cases hc : c = ':' <;> simp [spellLiteral, hc]

/-- What may follow a parameter's literal: the span's end, or a `:` that chains the next
parameter. -/
def SpanStop (after : List Char) : Prop :=
  spanLiteral after = ([], after) ∧ ∀ c ∈ after.head?, endsParamName c = true ∧ c ≠ '\x7b'

theorem spanStop_of_afterSpan {rest : List Char} (hrest : AfterSpan rest) : SpanStop rest := by
  refine ⟨spanLiteral_of_afterSpan hrest, fun c hc => ?_⟩
  rcases hrest with h | h | h <;> rw [h] at hc <;> cases hc <;> decide

theorem spanStop_colon {more : List Char} (hmore : ∀ r, more ≠ ':' :: r) : SpanStop (':' :: more) := by
  refine ⟨?_, fun c hc => ?_⟩
  · rw [spanLiteral.eq_3 _ _ (fun r _ h => hmore r h), if_pos (.inr (.inr rfl))]
  · cases hc
    decide

/-- A parameter's literal read in front of a stop is read whole. -/
theorem spanLiteral_spelled_stop (l : List Char) (hl : '/' ∉ l ∧ '*' ∉ l) {after : List Char}
    (hstop : spanLiteral after = ([], after)) : spanLiteral (spellLiteral l ++ after) = (l, after) := by
  induction l with
  | nil => simpa using hstop
  | cons c l ih =>
    have hl' : '/' ∉ l ∧ '*' ∉ l := ⟨fun h => hl.1 (.tail _ h), fun h => hl.2 (.tail _ h)⟩
    by_cases hc : c = ':'
    · subst hc
      simp [spellLiteral_colon, spanLiteral, ih hl']
    · have hslash : c ≠ '/' := fun h => hl.1 (h ▸ .head _)
      have hstar : c ≠ '*' := fun h => hl.2 (h ▸ .head _)
      rw [spellLiteral_cons_of_ne hc, List.cons_append,
        spanLiteral.eq_3 _ _ (fun _ h _ => absurd h hc), if_neg (by simp [hc, hslash, hstar]), ih hl']

/-- An unconstrained parameter read in front of a stop: its name, its group and its whole
literal, in that order. -/
theorem PlainParam.read_parts (p : PlainParam) {after : List Char} (hstop : SpanStop after) :
    (p.spelling ++ after).takeWhile (!endsParamName ·) = p.name ∧
    (p.spelling ++ after).dropWhile (!endsParamName ·) = spellLiteral p.literal ++ after ∧
    (∀ t, spellLiteral p.literal ++ after ≠ '\x7b' :: t) ∧
    spanLiteral (spellLiteral p.literal ++ after) = (p.literal, after) := by
  -- the first character after the name ends it, and is no `{`
  have hends : ∀ c ∈ (spellLiteral p.literal ++ after).head?, endsParamName c = true ∧ c ≠ '\x7b' := by
    intro c hc
    cases hl : p.literal with
    | nil => simpa [hl] using hstop.2 c (by simpa [hl] using hc)
    | cons d l =>
      have hhead : c = d := by
        simpa [hl, List.head?_append, head?_spellLiteral] using hc.symm
      subst hhead
      rcases p.literal_head c (by simp [hl]) with rfl | rfl | rfl <;> decide
  have hname : ∀ c ∈ p.name, (!endsParamName c) = true := fun c hc => by simp [p.name_plain c hc]
  have hstopName : ∀ c ∈ (spellLiteral p.literal ++ after).head?, (!endsParamName c) = false :=
    fun c hc => by simp [(hends c hc).1]
  refine ⟨?_, ?_, ?_, spanLiteral_spelled_stop p.literal p.literal_inside hstop.1⟩
  · rw [PlainParam.spelling, List.append_assoc, List.takeWhile_append_of_pos hname]
    simpa using takeWhile_append_of_head [] hstopName
  · rw [PlainParam.spelling, List.append_assoc, List.dropWhile_append_of_pos hname]
    simpa using dropWhile_append_of_head [] hstopName
  · intro t ht
    exact (hends '\x7b' (by simp [ht])).2 rfl

/-- The last parameter of a span, read in front of the end, a `/` or a `*`. -/
theorem readSpan_plainParam_last (pattern : String) (st : SpanRegex) (p : PlainParam)
    {rest : List Char} (hrest : AfterSpan rest) :
    readSpan pattern (p.spelling ++ rest) st = .ok (st.plainParam p, p.literal, rest) := by
  obtain ⟨htake, hdrop, hbrace, hlit⟩ := p.read_parts (spanStop_of_afterSpan hrest)
  rw [readSpan]
  simp only [htake, hdrop, readGroup_plain pattern _ hbrace, hlit, bind, Except.bind]
  split
  · exact absurd rfl (afterSpan_colon_false hrest _)
  · rfl

/-- A parameter followed by `:` chains the next one, which is read with the regex so far. -/
theorem readSpan_plainParam_next (pattern : String) (st : SpanRegex) (p : PlainParam)
    {more : List Char} (hmore : ∀ r, more ≠ ':' :: r) :
    readSpan pattern (p.spelling ++ ':' :: more) st =
      readSpan pattern more { st.plainParam p with needed := true } := by
  obtain ⟨htake, hdrop, hbrace, hlit⟩ := p.read_parts (spanStop_colon hmore)
  rw [readSpan]
  simp only [htake, hdrop, readGroup_plain pattern _ hbrace, hlit, bind, Except.bind]
  rw [if_pos (by simp only [List.length_append, List.length_cons]; omega)]
  rfl

/-! ## Reading the chain -/

theorem quote_toList (d : List Char) : (quote (String.ofList d)).toList = quoteChars d := by
  simp [quote]

theorem quoteChars_ne_nil {d : List Char} (hd : d ≠ []) : quoteChars d ≠ [] := by
  obtain ⟨c, d, rfl⟩ := List.exists_cons_of_ne_nil hd
  by_cases hc : isMeta c <;> simp [quoteChars, hc]

/-- After a literal that is not empty, an unconstrained parameter matches separated by it. -/
theorem plainParam_body_separated {st : SpanRegex} {prev : List Char} (hprev : prev ≠ [])
    (hlazy : st.lazyNext = false) (hsep : st.separator = quote (String.ofList prev)) (p : PlainParam) :
    (st.plainParam p).body.toList = st.body.toList ++ separatedText prev ++ quoteChars p.literal := by
  have hne : quote (String.ofList prev) ≠ "" := by
    intro h
    have := congrArg String.toList h
    rw [quote_toList] at this
    exact quoteChars_ne_nil hprev this
  simp [SpanRegex.plainParam, SpanRegex.plainGroup, hlazy, hne, hsep, separatedGroup,
    separatedText, quote_toList]

/-- Parameters spelled and joined by `:` do not start with `:`, which would be read with the `:`
before them as a literal colon. -/
theorem PlainParam.spelling_append_ne_colon (p : PlainParam) {x : List Char}
    (hx : p.literal = [] → ∀ r, x ≠ ':' :: r) (r : List Char) : p.spelling ++ x ≠ ':' :: r := by
  cases hn : p.name with
  | cons c name =>
    have hc : endsParamName c = false := p.name_plain c (by simp [hn])
    intro h
    simp only [PlainParam.spelling, hn, List.cons_append, List.cons.injEq] at h
    rw [h.1] at hc
    exact absurd hc (by decide)
  | nil =>
    cases hl : p.literal with
    | nil => simpa [PlainParam.spelling, hn, hl] using hx hl r
    | cons c l =>
      have hc : c ≠ ':' := fun h => p.colon_named hn (by simp [hl, h])
      intro h
      have := congrArg List.head? h
      simp [PlainParam.spelling, hn, hl, List.head?_append, head?_spellLiteral] at this
      exact hc this

theorem intercalate_spelling_cons_cons (p q : PlainParam) (qs : List PlainParam) :
    [':'].intercalate ((p :: q :: qs).map PlainParam.spelling) =
      p.spelling ++ ':' :: [':'].intercalate ((q :: qs).map PlainParam.spelling) := by
  simp only [List.map_cons]
  rw [List.intercalate_cons_cons, List.append_assoc, List.singleton_append]

theorem intercalate_spelling_ne_colon {ps : List PlainParam}
    (hsep : ∀ p ∈ ps.dropLast, p.literal ≠ []) {rest : List Char} (hrest : AfterSpan rest)
    (r : List Char) : [':'].intercalate (ps.map PlainParam.spelling) ++ rest ≠ ':' :: r := by
  match ps with
  | [] => exact afterSpan_colon_false hrest r
  | [p] =>
    simpa using p.spelling_append_ne_colon (fun _ => afterSpan_colon_false hrest) r
  | p :: q :: qs =>
    have hp : p.literal ≠ [] := hsep p (by simp)
    rw [intercalate_spelling_cons_cons, List.append_assoc]
    exact p.spelling_append_ne_colon (fun h => absurd h hp) r

/-- A parameter followed by more is read with its separator, and the chain goes on after it. -/
theorem readSpan_chain_cons (pattern : String) (st : SpanRegex) (p q : PlainParam)
    (qs : List PlainParam) (hsep : ∀ x ∈ (q :: qs).dropLast, x.literal ≠ []) {rest : List Char}
    (hrest : AfterSpan rest) :
    readSpan pattern ([':'].intercalate ((p :: q :: qs).map PlainParam.spelling) ++ rest) st =
      readSpan pattern ([':'].intercalate ((q :: qs).map PlainParam.spelling) ++ rest)
        { st.plainParam p with needed := true } := by
  rw [intercalate_spelling_cons_cons, List.append_assoc, List.cons_append,
    readSpan_plainParam_next pattern st p (intercalate_spelling_ne_colon hsep hrest)]

/-- The parameters after the first, read with a regex that is already needed and whose last
literal `prev` is not empty: each matches separated by the literal before it. -/
theorem readSpan_separatedParams (pattern : String) {rest : List Char} (hrest : AfterSpan rest) :
    ∀ (ps : List PlainParam) (hps : ps ≠ []) (prev : List Char) (st : SpanRegex),
      (∀ p ∈ ps.dropLast, p.literal ≠ []) → prev ≠ [] → st.lazyNext = false →
      st.separator = quote (String.ofList prev) → st.needed = true →
      ∃ st', readSpan pattern ([':'].intercalate (ps.map PlainParam.spelling) ++ rest) st =
          .ok (st', (ps.getLast hps).literal, rest) ∧
        st'.body.toList = st.body.toList ++ separatedPartsText prev (ps.map PlainParam.literal) ∧
        st'.names = st.names ++ ps.map (fun p => String.ofList p.name) ∧ st'.needed = true
  | [], hps => absurd rfl hps
  | [p], _ => by
    intro prev st _ hprev hlazy hsep hneeded
    refine ⟨st.plainParam p, ?_, ?_, rfl, by simp [SpanRegex.plainParam, hneeded]⟩
    · simpa using readSpan_plainParam_last pattern st p hrest
    · rw [plainParam_body_separated hprev hlazy hsep]
      simp [separatedPartsText]
  | p :: q :: qs, _ => by
    intro prev st hsepAll hprev hlazy hsep hneeded
    rw [List.dropLast_cons_cons, List.forall_mem_cons] at hsepAll
    obtain ⟨hp, hsepRest⟩ := hsepAll
    -- the next parameters are read after this one's literal, which separates them
    obtain ⟨st', hread, hbody, hnames, hneeded'⟩ := readSpan_separatedParams pattern hrest (q :: qs)
      (List.cons_ne_nil _ _) p.literal { st.plainParam p with needed := true } hsepRest hp rfl rfl rfl
    refine ⟨st', ?_, ?_, ?_, hneeded'⟩
    · rw [readSpan_chain_cons pattern st p q qs hsepRest hrest]
      simpa using hread
    · rw [hbody]
      simp [plainParam_body_separated hprev hlazy hsep, separatedPartsText]
    · rw [hnames]
      simp [SpanRegex.plainParam]

namespace ChainedSpan

/-- The span's last literal: its suffix. -/
def suffix (c : ChainedSpan) : List Char := (c.params.getLast c.nonempty).literal

theorem separators_ne_nil (c : ChainedSpan) : ∀ d ∈ c.literals.dropLast, d ≠ [] := by
  intro d hd
  rw [literals, ← List.map_dropLast] at hd
  obtain ⟨p, hp, rfl⟩ := List.mem_map.1 hd
  exact c.separators p hp

end ChainedSpan

/-- The regex the reader writes for a chained span is `chainText` of its literals: the first
group lazy, the later ones separated, each followed by its literal quoted. It is needed unless
the span is one parameter with nothing after it. -/
theorem readSpan_chainedSpan (pattern : String) (c : ChainedSpan) {rest : List Char}
    (hrest : AfterSpan rest) :
    ∃ st : SpanRegex, readSpan pattern (c.spelling ++ rest) {} = .ok (st, c.suffix, rest) ∧
      st.names = c.names ∧ (st.needed = false ↔ c.literals = [[]]) ∧
      ∀ d ds, c.literals = d :: ds → ("^" ++ st.body ++ "$").toList = chainText d ds := by
  obtain ⟨ps, hps, hsep⟩ := c
  match ps, hps, hsep with
  | [p], _, _ =>
    refine ⟨({} : SpanRegex).plainParam p, ?_, rfl, ?_, ?_⟩
    · simpa [ChainedSpan.spelling, ChainedSpan.suffix] using
        readSpan_plainParam_last pattern {} p hrest
    · simp [SpanRegex.plainParam, ChainedSpan.literals]
    · intro d ds hlits
      simp only [ChainedSpan.literals, List.map_cons, List.map_nil, List.cons.injEq] at hlits
      obtain ⟨rfl, rfl⟩ := hlits
      simp [SpanRegex.plainParam, SpanRegex.plainGroup, chainText, separatedPartsText, quote_toList]
  | p :: q :: qs, _, hsep =>
    rw [List.dropLast_cons_cons, List.forall_mem_cons] at hsep
    obtain ⟨hp, hsepRest⟩ := hsep
    -- the first parameter matches lazily; the others are read as a chain after its literal
    obtain ⟨st, hread, hbody, hnames, hneeded⟩ := readSpan_separatedParams pattern hrest (q :: qs)
      (List.cons_ne_nil _ _) p.literal { ({} : SpanRegex).plainParam p with needed := true }
      hsepRest hp rfl rfl rfl
    refine ⟨st, ?_, ?_, ?_, ?_⟩
    · rw [ChainedSpan.spelling, readSpan_chain_cons pattern {} p q qs hsepRest hrest]
      simpa [ChainedSpan.suffix] using hread
    · rw [hnames]
      simp [SpanRegex.plainParam, ChainedSpan.names]
    · simp [hneeded, ChainedSpan.literals]
    · intro d ds hlits
      simp only [ChainedSpan.literals, List.map_cons, List.cons.injEq] at hlits
      obtain ⟨rfl, rfl⟩ := hlits
      simp [hbody, SpanRegex.plainParam, SpanRegex.plainGroup, chainText, quote_toList]

/-- A span of unconstrained parameters works as a parser of its segment. Reading it gives its
parameter names, and it reads a segment as values laid out with its literals after them: the
values it gives always lay the segment out so, and any values free of line feeds and of the
literals' characters, laid out so, are given back exactly. The span has no regex, and its value is
the whole segment, exactly when it is one parameter with nothing after it. -/
theorem chained_span_reads_its_values (pattern : String) (c : ChainedSpan) {rest : List Char}
    (hrest : AfterSpan rest) :
    ∃ span, readParamSpan pattern (c.spelling ++ rest) = .ok (span, c.names, rest) ∧
      span.ReadsAs c.literals ∧ (span.regex = none ↔ c.literals = [[]]) := by
  obtain ⟨st, hread, hnames, hneeded, hbody⟩ := readSpan_chainedSpan pattern c hrest
  rw [readParamSpan, hread]
  simp only [bind, Except.bind, pure, Except.pure, hnames]
  refine ⟨_, rfl, ?_, ?_⟩
  · cases hst : st.needed with
    | false =>
      rw [hneeded.1 hst]
      exact readsAs_of_regex_none (by simp)
    | true =>
      -- the regex text is `chainText` of the literals, which the regex reader reads back
      obtain ⟨p, ps, hparams⟩ := List.exists_cons_of_ne_nil c.nonempty
      have hlits : c.literals = p.literal :: ps.map PlainParam.literal := by
        simp [ChainedSpan.literals, hparams]
      have hsep := c.separators_ne_nil
      rw [hlits] at hsep ⊢
      have hsource : "^" ++ st.body ++ "$" = String.ofList (chainText p.literal (ps.map PlainParam.literal)) := by
        rw [← hbody _ _ hlits, String.ofList_toList]
      exact Pattern.SplitsAt.readsAs (by simp [hsource]) (parse_chainText _ _ hsep)
        (chainPattern_splitsAt _ _ hsep)
  · cases hst : st.needed <;> simp [← hneeded, hst]


/-- The span `:hour-:minute`: two parameters with `-` between them and nothing after. -/
def clockSpan : ChainedSpan where
  params := [⟨['h', 'o', 'u', 'r'], ['-'], by simp [endsParamName], by simp, by simp, by simp⟩,
    ⟨['m', 'i', 'n', 'u', 't', 'e'], [], by simp [endsParamName], by simp, by simp, by simp⟩]
  nonempty := List.cons_ne_nil _ _
  separators := by decide

example : clockSpan.spelling = "hour-:minute".toList := by decide

theorem clock_span_reads_its_values : AfterSpan [] ∧ ∃ span,
    readParamSpan "/at/:hour-:minute" (clockSpan.spelling ++ []) = .ok (span, clockSpan.names, []) ∧
      span.ReadsAs clockSpan.literals ∧ (span.regex = none ↔ clockSpan.literals = [[]]) :=
  ⟨.inl rfl, chained_span_reads_its_values "/at/:hour-:minute" clockSpan (.inl rfl)⟩

end Routing
