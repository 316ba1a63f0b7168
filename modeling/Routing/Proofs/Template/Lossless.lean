import Routing.Proofs.Template.Shape
/-!
# Templates are read without loss

The template reader splits a template into literal text, parameter spans and the wildcard, and
drops nothing: writing each token back as template text (literal text with every `:` doubled,
a span as its own text, the wildcard as `*`) gives back the template without the `/` the root
owns (`compile_route_reads_without_loss`). The tokens have one shape: literal text is never
empty, holds no `*`, and is read whole, so two literal texts never follow each other; a span
starts with `:` and is followed by the end, the wildcard or literal text from a `/`; the wildcard
comes last. The route's parameter names are those its spans declare, each read again from the
span's own text, then `*` for the wildcard.

A span's text is self-delimiting. Its reading stops at the end of the template, a `/` or a `*`,
and none of its readers looks past that point: the name stops there, a constraint that closes
does so before it, and literal text stops there too. So the span's text read alone is read the
same way (`readSpan_frame`).
-/

namespace Routing

/-! ## Literal text as a template writes it -/

/-- Literal text as a template writes it: every `:` doubled, since a single `:` starts a
parameter. -/
def spellLiteral (l : List Char) : List Char :=
  l.flatMap fun c => if c = ':' then [':', ':'] else [c]

@[simp] theorem spellLiteral_nil : spellLiteral [] = [] := rfl

@[simp] theorem spellLiteral_append (a b : List Char) :
    spellLiteral (a ++ b) = spellLiteral a ++ spellLiteral b := by
  simp [spellLiteral]

theorem spellLiteral_colon (l : List Char) :
    spellLiteral (':' :: l) = ':' :: ':' :: spellLiteral l := by
  simp [spellLiteral]

theorem spellLiteral_cons_of_ne {c : Char} (hc : c ≠ ':') (l : List Char) :
    spellLiteral (c :: l) = c :: spellLiteral l := by
  simp [spellLiteral, hc]

theorem spellLiteral_eq_nil {l : List Char} : spellLiteral l = [] ↔ l = [] := by
  cases l with
  | nil => simp
  | cons c l => by_cases hc : c = ':' <;> simp [spellLiteral, hc]

theorem render_text (s : String) : (Token.render (.text s)).toList = spellLiteral s.toList := by
  simp [Token.render, spellLiteral]

/-- The literal text of a span, written back, followed by what is left, is the text read. -/
theorem spanLiteral_spelled (cs : List Char) :
    spellLiteral (spanLiteral cs).1 ++ (spanLiteral cs).2 = cs := by
  fun_induction spanLiteral cs with
  | case1 => rfl
  | case2 r l rest hsl ih =>
    rw [hsl] at ih
    simpa [spellLiteral_colon] using ih
  | case3 c r _ _ => rfl
  | case4 c r hcc hc l rest hsl ih =>
    rw [hsl] at ih
    have hne : c ≠ ':' := fun h => hc (.inr (.inr h))
    simpa [spellLiteral_cons_of_ne hne] using ih

theorem spanLiteral_of_afterSpan {y : List Char} (hy : AfterSpan y) : spanLiteral y = ([], y) := by
  rcases hy with hy | hy | hy
  · rw [List.head?_eq_none_iff.1 hy]
    rfl
  · obtain ⟨r, rfl⟩ := List.head?_eq_some_iff.1 hy
    simp [spanLiteral]
  · obtain ⟨r, rfl⟩ := List.head?_eq_some_iff.1 hy
    simp [spanLiteral]

theorem afterSpan_colon_false {y : List Char} (hy : AfterSpan y) (r : List Char) : y ≠ ':' :: r := by
  rintro rfl
  rcases hy with hy | hy | hy <;> simp at hy

/-- Literal text read in front of the end, a `/` or a `*` stops where it stopped alone. -/
theorem spanLiteral_append (x : List Char) {y : List Char} (hy : AfterSpan y) :
    spanLiteral (x ++ y) = ((spanLiteral x).1, (spanLiteral x).2 ++ y) := by
  fun_induction spanLiteral x with
  | case1 => exact spanLiteral_of_afterSpan hy
  | case2 r l rest hsl ih =>
    rw [hsl] at ih
    simp [spanLiteral, ih]
  | case3 c r hcc hc =>
    -- a stop: `/`, `*`, or a single `:`, which stays single in front of `y`
    have hcc' : ∀ r', c = ':' → r ++ y = ':' :: r' → False := by
      intro r' hc' heq
      cases r with
      | nil => exact afterSpan_colon_false hy r' heq
      | cons d r'' =>
        simp only [List.cons_append, List.cons.injEq] at heq
        exact hcc r'' hc' (by rw [heq.1])
    rw [List.cons_append, spanLiteral.eq_3 _ _ hcc', if_pos hc]
  | case4 c r hcc hc l rest hsl ih =>
    rw [hsl] at ih
    have hne : c ≠ ':' := fun h => hc (.inr (.inr h))
    rw [List.cons_append, spanLiteral.eq_3 _ _ (fun _ h => absurd h hne), if_neg hc, ih]

/-! ## Constraint braces look no further than their `}` -/

theorem closeBraceFrom_cons {c : Char} (hc : c ≠ '\\') (rest : List Char) (depth : Nat)
    (acc : List Char) :
    closeBraceFrom (c :: rest) depth acc =
      if c = '\x7b' then closeBraceFrom rest (depth + 1) (c :: acc)
      else if c = '\x7d' then
        if depth ≤ 1 then some (acc.reverse, rest) else closeBraceFrom rest (depth - 1) (c :: acc)
      else closeBraceFrom rest depth (c :: acc) :=
  closeBraceFrom.eq_4 _ _ _ _ (fun h => absurd h hc) (fun _ _ h => absurd h hc)

/-- What is left after a constraint's `}` is part of the text after the `{`'s first character. -/
theorem closeBraceFrom_suffix : ∀ (cs : List Char) (depth : Nat) (acc inner after : List Char),
    closeBraceFrom cs depth acc = some (inner, after) → after <:+ cs.tail := by
  intro cs depth acc
  fun_induction closeBraceFrom cs depth acc with
  | case1 | case2 => intro inner after h; cases h
  | case3 c rest depth acc ih =>
    intro inner after h
    exact ((ih inner after h).trans (List.tail_suffix rest)).trans (List.suffix_cons c rest)
  | case4 rest depth acc _ _ ih =>
    exact fun inner after h => (ih inner after h).trans (List.tail_suffix rest)
  | case5 rest depth acc =>
    intro inner after h
    cases h
    exact List.suffix_refl _
  | case6 rest depth acc _ _ _ _ ih =>
    exact fun inner after h => (ih inner after h).trans (List.tail_suffix rest)
  | case7 c rest depth acc _ _ _ _ ih =>
    exact fun inner after h => (ih inner after h).trans (List.tail_suffix rest)

theorem closeBraceFrom_length_lt {cs : List Char} {depth : Nat} {acc inner after : List Char}
    (h : closeBraceFrom cs depth acc = some (inner, after)) : after.length < cs.length := by
  have hs := (closeBraceFrom_suffix cs depth acc inner after h).length_le
  cases cs with
  | nil => cases h
  | cons c cs => simp only [List.tail_cons, List.length_cons] at hs ⊢; omega

/-- A constraint that closes before the text `y` closes in the text before `y` alone. -/
theorem closeBraceFrom_frame : ∀ (x : List Char) (depth : Nat) (acc : List Char) {y inner after : List Char},
    closeBraceFrom (x ++ y) depth acc = some (inner, after) → y <:+ after →
      ∃ z, after = z ++ y ∧ closeBraceFrom x depth acc = some (inner, z) := by
  intro x depth acc
  fun_induction closeBraceFrom x depth acc with
  | case1 depth acc =>
    intro y inner after h hy
    have := closeBraceFrom_length_lt h
    have := hy.length_le
    simp only [List.nil_append] at *
    omega
  | case2 depth acc =>
    -- a final backslash: the character it hides lies in `y`
    intro y inner after h hy
    have hl := hy.length_le
    cases y with
    | nil => simp [closeBraceFrom] at h
    | cons d y' =>
      have hlt := @closeBraceFrom_length_lt y' depth (d :: '\\' :: acc) inner after
        (by simpa [closeBraceFrom] using h)
      simp only [List.length_cons] at hl
      omega
  | case3 c rest depth acc ih =>
    intro y inner after h hy
    exact ih (by simpa [closeBraceFrom] using h) hy
  | case4 rest depth acc _ _ ih =>
    intro y inner after h hy
    rw [List.cons_append, closeBraceFrom_cons (by decide), if_pos rfl] at h
    exact ih h hy
  | case5 rest depth acc hd =>
    intro y inner after h hy
    rw [List.cons_append, closeBraceFrom_cons (by decide), if_neg (by decide), if_pos rfl,
      if_pos hd] at h
    cases h
    exact ⟨rest, rfl, rfl⟩
  | case6 rest depth acc hd _ _ _ ih =>
    intro y inner after h hy
    rw [List.cons_append, closeBraceFrom_cons (by decide), if_neg (by decide), if_pos rfl,
      if_neg hd] at h
    exact ih h hy
  | case7 c rest depth acc hnil hcons hb hc ih =>
    intro y inner after h hy
    have hbs : c ≠ '\\' := by
      intro hc'
      cases rest with
      | nil => exact hnil hc' rfl
      | cons d rest => exact hcons d rest hc' rfl
    rw [List.cons_append, closeBraceFrom_cons hbs, if_neg hb, if_neg hc] at h
    exact ih h hy

/-! ## A span's text is self-delimiting -/

theorem readGroup_suffix {pattern : String} {afterName after : List Char} {st st' : SpanRegex}
    (h : readGroup pattern afterName st = .ok (st', after)) : after <:+ afterName := by
  unfold readGroup at h
  split at h
  · rename_i t
    rcases hclose : closeBrace t with _ | ⟨inner, rest⟩ <;> rw [hclose] at h <;> cases h
    exact (closeBraceFrom_suffix t 1 [] inner _ hclose).trans
      ((List.tail_suffix t).trans (List.suffix_cons _ t))
  · split at h <;> cases h <;> exact List.suffix_refl _

/-- The group of an unconstrained parameter: lazy at the start of the span and after a
constraint, and otherwise separated by the literal before it. -/
def SpanRegex.plainGroup (st : SpanRegex) : String :=
  if st.lazyNext || st.separator.isEmpty then "(.*?)" else separatedGroup st.separator

theorem readGroup_plain (pattern : String) (st : SpanRegex) {afterName : List Char}
    (hne : ∀ t, afterName ≠ '\x7b' :: t) :
    readGroup pattern afterName st =
      .ok ({ st with body := st.body ++ st.plainGroup, lazyNext := false }, afterName) := by
  unfold readGroup
  split
  · exact absurd rfl (hne _)
  · by_cases hlazy : (st.lazyNext || st.separator.isEmpty) = true
    · simp only [hlazy, if_true, SpanRegex.plainGroup]
      rfl
    · have hnext : st.lazyNext = false := by simp_all
      simp only [hlazy, SpanRegex.plainGroup, Bool.false_eq_true, if_false]
      cases st
      cases hnext
      rfl

/-- Without a constraint, a parameter's group depends only on the regex read so far, and the
group reads nothing of the template. -/
theorem readGroup_unconstrained (st : SpanRegex) : ∃ st', ∀ pattern afterName,
    (∀ t, afterName ≠ '\x7b' :: t) → readGroup pattern afterName st = .ok (st', afterName) :=
  ⟨_, fun pattern _ hne => readGroup_plain pattern st hne⟩

/-- The group of a parameter read in front of the end, a `/` or a `*`, when what it leaves
still holds that end, is read the same from the text before it. -/
theorem readGroup_frame {pattern : String} (pattern' : String) {a rest after : List Char} {st st' : SpanRegex}
    (hrest : AfterSpan rest) (h : readGroup pattern (a ++ rest) st = .ok (st', after))
    (hsuf : rest <:+ after) : ∃ g, after = g ++ rest ∧ readGroup pattern' a st = .ok (st', g) := by
  obtain ⟨st₀, h₀⟩ := readGroup_unconstrained st
  cases a with
  | nil =>
    -- no constraint follows the name: the group reads nothing
    have hne : ∀ t, rest ≠ '\x7b' :: t := by
      rintro t rfl
      rcases hrest with hr | hr | hr <;> simp at hr
    rw [List.nil_append, h₀ pattern rest hne] at h
    cases h
    exact ⟨[], rfl, h₀ pattern' [] (fun t h => by cases h)⟩
  | cons c a' =>
    by_cases hc : c = '\x7b'
    · -- a constraint, which closes before `rest`
      subst hc
      unfold readGroup at h ⊢
      simp only [List.cons_append] at h
      rcases hclose : closeBrace (a' ++ rest) with _ | ⟨inner, z⟩ <;>
        simp only [hclose] at h <;> cases h
      obtain ⟨g, rfl, hg⟩ := closeBraceFrom_frame a' 1 [] hclose hsuf
      refine ⟨g, rfl, ?_⟩
      simp only [closeBrace, hg]
      rfl
    · have hne : ∀ (x : List Char) t, c :: x ≠ '\x7b' :: t := fun x t h => hc (List.cons.inj h).1
      rw [List.cons_append, h₀ pattern _ (hne _)] at h
      cases h
      exact ⟨c :: a', rfl, h₀ pattern' _ (hne _)⟩

theorem dropWhile_append_of_head {p : Char → Bool} (x : List Char) {y : List Char}
    (hy : ∀ c ∈ y.head?, p c = false) : (x ++ y).dropWhile p = x.dropWhile p ++ y := by
  induction x with
  | nil =>
    cases y with
    | nil => rfl
    | cons c y => simp [hy c rfl]
  | cons c x ih => by_cases hc : p c <;> simp [hc, ih]

theorem takeWhile_append_of_head {p : Char → Bool} (x : List Char) {y : List Char}
    (hy : ∀ c ∈ y.head?, p c = false) : (x ++ y).takeWhile p = x.takeWhile p := by
  induction x with
  | nil =>
    cases y with
    | nil => rfl
    | cons c y => simp [hy c rfl]
  | cons c x ih => by_cases hc : p c <;> simp [hc, ih]

theorem afterSpan_ends_name {y : List Char} (hy : AfterSpan y) :
    ∀ c ∈ y.head?, (!endsParamName c) = false := by
  intro c hc
  rcases hy with hy | hy | hy <;> rw [hy] at hc <;> cases hc <;> decide

/-- The parameters of a span are read up to what they leave: reading never adds text. -/
theorem readSpan_suffix (pattern : String) : ∀ (cs : List Char) (st st' : SpanRegex) (lit rest : List Char),
    readSpan pattern cs st = .ok (st', lit, rest) → rest <:+ cs := by
  intro cs
  induction hn : cs.length using Nat.strongRecOn generalizing cs with
  | _ n ih =>
    intro st st' lit rest h
    rw [readSpan] at h
    obtain ⟨⟨st₁, afterGroup⟩, hgroup, h⟩ := Except.bind_eq_ok.1 h
    have hgs : afterGroup <:+ cs := (readGroup_suffix hgroup).trans (List.dropWhile_suffix _)
    have hsp := spanLiteral_spelled afterGroup
    dsimp only at h
    generalize spanLiteral afterGroup = sl at h hsp
    obtain ⟨l, rest'⟩ := sl
    dsimp only at h hsp
    have hrs : rest' <:+ cs := (hsp ▸ List.suffix_append (spellLiteral l) rest').trans hgs
    split at h
    · rename_i more
      split at h
      · exact (ih more.length (by omega) more rfl _ _ _ _ h).trans
          ((List.suffix_cons ':' more).trans hrs)
      · cases h
    · cases h
      exact hrs

/-- A span read in front of the end, a `/` or a `*` is read the same from its own text. The
induction follows the chained parameters of the span. -/
theorem readSpan_frame {pattern : String} (pattern' : String) {rest : List Char} (hrest : AfterSpan rest) :
    ∀ (pre : List Char) (st st' : SpanRegex) (lit : List Char),
      readSpan pattern (pre ++ rest) st = .ok (st', lit, rest) →
        readSpan pattern' pre st = .ok (st', lit, []) := by
  intro pre
  induction hn : pre.length using Nat.strongRecOn generalizing pre with
  | _ n ih =>
    intro st st' lit h
    have hname := afterSpan_ends_name hrest
    rw [readSpan, takeWhile_append_of_head pre hname, dropWhile_append_of_head pre hname] at h
    rw [readSpan]
    obtain ⟨⟨st₁, afterGroup⟩, hgroup, h⟩ := Except.bind_eq_ok.1 h
    -- what is left after the group still ends with `rest`
    have hsuf : rest <:+ afterGroup := by
      have hsp := spanLiteral_spelled afterGroup
      dsimp only at h
      generalize spanLiteral afterGroup = sl at h hsp
      obtain ⟨l, rest'⟩ := sl
      dsimp only at h hsp
      have hrs : rest' <:+ afterGroup := hsp ▸ List.suffix_append _ _
      split at h
      · rename_i more
        split at h
        · exact (readSpan_suffix pattern more _ _ _ _ h).trans
            ((List.suffix_cons ':' more).trans hrs)
        · cases h
      · cases h
        exact hrs
    obtain ⟨g, rfl, hg⟩ := readGroup_frame pattern' hrest hgroup hsuf
    refine Except.bind_eq_ok.2 ⟨(st₁, g), hg, ?_⟩
    dsimp only at h ⊢
    rw [spanLiteral_append g hrest] at h
    have hsp := spanLiteral_spelled g
    generalize spanLiteral g = sl at h hsp ⊢
    obtain ⟨l, r⟩ := sl
    dsimp only at h hsp ⊢
    cases r with
    | nil =>
      -- the span ends at `rest`
      simp only [List.nil_append] at h
      split at h
      · exact absurd rfl (afterSpan_colon_false hrest _)
      · cases h
        rfl
    | cons c r' =>
      by_cases hc : c = ':'
      · -- a chained parameter, read from a shorter text
        subst hc
        simp only [List.cons_append] at h ⊢
        split at h
        · rename_i hlt
          have hlen : r'.length < pre.length := by
            have := congrArg List.length hsp
            simp only [List.length_append, List.length_cons] at this hlt ⊢
            omega
          simp only [hlen]
          exact ih r'.length (by omega) r' rfl _ _ _ h
        · cases h
      · -- any other stop would end the span before `rest`
        simp only [List.cons_append] at h
        split at h
        · rename_i more heq
          cases heq
          exact absurd rfl hc
        · simp only [pure, Except.pure, Except.ok.injEq, Prod.mk.injEq] at h
          have := congrArg List.length h.2.2
          simp only [List.length_cons, List.length_append] at this
          omega

/-! ## Spans and the names they declare -/

/-- The parameter names a span declares, read from its own template text. -/
def ParamSpan.names (p : ParamSpan) : List String :=
  match p.source.toList with
  | ':' :: cs =>
    match readParamSpan p.source cs with
    | .ok (_, names, _) => names
    | .error _ => []
  | _ => []

/-- The parameter names a token declares: a span's own, and `*` for the wildcard. -/
def Token.names : Token → List String
  | .text _ => []
  | .param p => p.names
  | .wildcard => ["*"]

/-- A span read from a template: its text is its `:` and what the reader consumed, and the
names it declares, read again from that text, are the names read. -/
theorem readParamSpan_source {pattern : String} {cs : List Char} {span : ParamSpan}
    {names : List String} {rest : List Char} (h : readParamSpan pattern cs = .ok (span, names, rest)) :
    ∃ pre, cs = pre ++ rest ∧ span.source.toList = ':' :: pre ∧ span.names = names := by
  have hafter := readParamSpan_rest h
  unfold readParamSpan at h
  obtain ⟨⟨st, lit, rest'⟩, hread, h⟩ := Except.bind_eq_ok.1 h
  cases h
  obtain ⟨pre, rfl⟩ := readSpan_suffix pattern _ _ st lit rest hread
  have htake : (pre ++ rest).take ((pre ++ rest).length - rest.length) = pre :=
    List.take_left' (by simp)
  have hsource : (String.ofList (':' :: (pre ++ rest).take ((pre ++ rest).length - rest.length))).toList =
      ':' :: pre := by
    rw [String.toList_ofList, htake]
  refine ⟨pre, rfl, hsource, ?_⟩
  -- the span's own text is read as it was read in the template
  have halone := readSpan_frame (String.ofList (':' :: pre)) hafter pre {} st lit hread
  unfold ParamSpan.names
  simp only [String.toList_ofList, readParamSpan, halone, htake]
  rfl

/-! ## The shape of the tokens -/

/-- `b` may directly follow `a` in a route read from a template: a span or the wildcard after
literal text, which is read whole; literal text from a `/` or the wildcard after a span;
nothing after the wildcard. -/
def Token.Precedes : Token → Token → Prop
  | .text _, .param _ => True
  | .text _, .wildcard => True
  | .param _, .text s => s.toList.head? = some '/'
  | .param _, .wildcard => True
  | _, _ => False

/-- The tokens the template reader gives: literal text is never empty and holds no `*`, a
span's text starts with `:`, and each token may follow the one before it. -/
structure TokensWellFormed (l : List Token) : Prop where
  text_ne : ∀ s, Token.text s ∈ l → s.toList ≠ []
  text_no_star : ∀ s, Token.text s ∈ l → '*' ∉ s.toList
  source_colon : ∀ p, Token.param p ∈ l → p.source.toList.head? = some ':'
  chain : l.IsChain Token.Precedes

theorem TokensWellFormed.nil : TokensWellFormed [] :=
  ⟨fun _ h => absurd h List.not_mem_nil, fun _ h => absurd h List.not_mem_nil,
    fun _ h => absurd h List.not_mem_nil, .nil⟩

theorem TokensWellFormed.append_singleton {l : List Token} {tok : Token} (h : TokensWellFormed l)
    (hlast : ∀ x ∈ l.getLast?, Token.Precedes x tok)
    (htext : ∀ s, tok = .text s → s.toList ≠ [] ∧ '*' ∉ s.toList)
    (hsource : ∀ p, tok = .param p → p.source.toList.head? = some ':') :
    TokensWellFormed (l ++ [tok]) where
  text_ne s hs := by
    rcases List.mem_append.1 hs with hs | hs
    · exact h.text_ne s hs
    · exact (htext s (List.mem_singleton.1 hs).symm).1
  text_no_star s hs := by
    rcases List.mem_append.1 hs with hs | hs
    · exact h.text_no_star s hs
    · exact (htext s (List.mem_singleton.1 hs).symm).2
  source_colon p hp := by
    rcases List.mem_append.1 hp with hp | hp
    · exact h.source_colon p hp
    · exact hsource p (List.mem_singleton.1 hp).symm
  chain := h.chain.append (.singleton tok) (by simpa using hlast)

/-- Nothing follows the wildcard, so it can only stand last. -/
theorem TokensWellFormed.wildcard_last {l : List Token} (h : TokensWellFormed l) {i : Nat}
    (hi : l[i]? = some .wildcard) : i + 1 = l.length := by
  have hlt : i < l.length := (List.getElem?_eq_some_iff.1 hi).1
  by_contra hne
  have hnext : i + 1 < l.length := by omega
  have hprec := h.chain.getElem i hnext
  rw [(List.getElem?_eq_some_iff.1 hi).2] at hprec
  exact hprec

/-! ## The reader's loop -/

/-- The template text of tokens: each token written back, in order. -/
def renderTokens (l : List Token) : List Char := l.flatMap fun t => t.render.toList

theorem renderTokens_append (a b : List Token) :
    renderTokens (a ++ b) = renderTokens a ++ renderTokens b := by
  simp [renderTokens]

theorem renderTokens_singleton (t : Token) : renderTokens [t] = t.render.toList := by
  simp [renderTokens]

/-- What holds between two steps of the reader of a template body `body`: the tokens read, the
literal text being read and the text left, written back, give the body; the tokens are well
formed and end with a span if they end with anything; the literal text holds no `*`, and after a
span it starts with `/` or is still empty with the end, a `/` or a `*` next; and the names read
are those the tokens declare. -/
structure Rendering (body cs lit : List Char) (acc : List Token) (names : List String) : Prop where
  spelled : renderTokens acc ++ spellLiteral lit ++ cs = body
  wf : TokensWellFormed acc
  ends_span : ∀ x ∈ acc.getLast?, ∃ p, x = .param p
  no_star : '*' ∉ lit
  after_span : acc ≠ [] → lit.head? = some '/' ∨ lit = [] ∧ AfterSpan cs
  names_eq : names = acc.flatMap Token.names

/-- Flushing the literal text keeps the tokens well formed and writes the text back. -/
theorem Rendering.flushed {body cs lit : List Char} {acc : List Token} {names : List String}
    (h : Rendering body cs lit acc names) :
    renderTokens (flushText lit acc) = renderTokens acc ++ spellLiteral lit ∧
      TokensWellFormed (flushText lit acc) ∧
      (flushText lit acc).flatMap Token.names = acc.flatMap Token.names ∧
      ∀ x ∈ (flushText lit acc).getLast?, (∃ s, x = .text s) ∨ lit = [] ∧ AfterSpan cs := by
  unfold flushText
  split_ifs with hlit
  · -- nothing to flush
    have hnil : lit = [] := List.isEmpty_iff.1 hlit
    subst hnil
    refine ⟨by simp, h.wf, rfl, fun x hx => .inr ⟨rfl, ?_⟩⟩
    have hne : acc ≠ [] := by rintro rfl; cases hx
    rcases h.after_span hne with hh | hh
    · cases hh
    · exact hh.2
  · have hne : lit ≠ [] := fun e => hlit (List.isEmpty_iff.2 e)
    refine ⟨by simp [renderTokens_append, renderTokens_singleton, render_text], ?_, by simp [Token.names],
      fun x hx => .inl ⟨_, by simpa using hx.symm⟩⟩
    refine h.wf.append_singleton (fun x hx => ?_) (fun s hs => ?_) (fun p hp => by cases hp)
    · -- literal text after a span starts with `/`
      obtain ⟨p, rfl⟩ := h.ends_span x hx
      have hacc : acc ≠ [] := by rintro rfl; cases hx
      rcases h.after_span hacc with hh | hh
      · simpa [Token.Precedes] using hh
      · exact absurd hh.1 hne
    · cases hs
      simpa using ⟨hne, h.no_star⟩

theorem Rendering.start (body : List Char) : Rendering body body [] [] [] :=
  ⟨by simp [renderTokens], .nil, (fun _ h => by cases h), by simp, (fun h => absurd rfl h), rfl⟩

/-- The reader's loop keeps `Rendering`, and ends with tokens that write the body back, are
well formed, and declare the names read. -/
theorem readTokens_rendering (pattern : String) (body : List Char) (cs lit : List Char)
    (acc : List Token) (names : List String) :
    Rendering body cs lit acc names → ∀ r, readTokens pattern cs lit acc names = .ok r →
      renderTokens r.tokens = body ∧ TokensWellFormed r.tokens ∧
        r.params = r.tokens.flatMap Token.names := by
  fun_induction readTokens pattern cs lit acc names with
  | case1 lit acc names =>
    intro h r hr
    cases hr
    obtain ⟨hrender, hwf, hnames, -⟩ := h.flushed
    refine ⟨?_, hwf, by rw [hnames, h.names_eq]⟩
    rw [hrender, ← h.spelled, List.append_nil]
  | case2 lit acc names r ih =>
    -- a doubled `:` is a literal `:`
    intro h
    refine ih ⟨?_, h.wf, h.ends_span, ?_, fun hne => ?_, h.names_eq⟩
    · rw [← h.spelled, spellLiteral_append, spellLiteral_colon]
      simp
    · simpa using h.no_star
    · rcases h.after_span hne with hh | ⟨rfl, hh⟩
      · left
        cases lit with
        | nil => cases hh
        | cons c l => simpa using hh
      · simp [AfterSpan] at hh
  | case3 lit acc names r hne ih =>
    -- a span: the literal text so far is flushed, then the span is appended
    intro h res hres
    obtain ⟨⟨span, spanNames, rest⟩, hspan, hres⟩ := Except.bind_eq_ok.1 hres
    dsimp only at hres
    split at hres
    · rename_i hlen
      obtain ⟨pre, hpre, hsource, hnames⟩ := readParamSpan_source hspan
      obtain ⟨hrender, hwf, hfnames, hlast⟩ := h.flushed
      refine ih span spanNames rest hlen ⟨?_, ?_, ?_, by simp, fun _ => ?_, ?_⟩ res hres
      · rw [renderTokens_append, hrender, renderTokens_singleton, ← h.spelled, hpre]
        simp [Token.render, hsource]
      · refine hwf.append_singleton (fun x hx => ?_) (fun s hs => by cases hs)
          (fun p hp => by cases hp; rw [hsource]; rfl)
        rcases hlast x hx with ⟨s, rfl⟩ | ⟨-, hh⟩
        · trivial
        · simp [AfterSpan] at hh
      · intro x hx
        simp only [List.getLast?_append, List.getLast?_singleton, Option.some_or, Option.mem_def,
          Option.some.injEq] at hx
        exact ⟨span, hx.symm⟩
      · exact .inr ⟨rfl, readParamSpan_rest hspan⟩
      · rw [h.names_eq, List.flatMap_append, ← hfnames]
        simp [Token.names, hnames]
    · cases hres
  | case4 lit acc names r hr =>
    -- the wildcard ends the template
    intro h res hres
    cases hres
    have hnil : r = [] := List.isEmpty_iff.1 hr
    subst hnil
    obtain ⟨hrender, hwf, hfnames, hlast⟩ := h.flushed
    refine ⟨?_, ?_, ?_⟩
    · rw [renderTokens_append, hrender, renderTokens_singleton, ← h.spelled]
      simp [Token.render]
    · refine hwf.append_singleton (fun x hx => ?_) (fun s hs => by cases hs) (fun p hp => by cases hp)
      rcases hlast x hx with ⟨s, rfl⟩ | ⟨rfl, -⟩
      · trivial
      · obtain ⟨p, rfl⟩ := h.ends_span x (by simpa [flushText] using hx)
        trivial
    · rw [h.names_eq, List.flatMap_append, ← hfnames]
      simp [Token.names]
  | case5 lit acc names r hr =>
    intro _ res hres
    cases hres
  | case6 lit acc names c r hcc hc hs ih =>
    -- any other character joins the literal text
    intro h
    have hne : c ≠ ':' := fun h' => hc h'
    refine ih ⟨?_, h.wf, h.ends_span, ?_, fun hacc => ?_, h.names_eq⟩
    · rw [← h.spelled, spellLiteral_append, spellLiteral_cons_of_ne hne]
      simp
    · simp only [List.mem_append, List.mem_singleton, not_or]
      exact ⟨h.no_star, fun h' => hs h'.symm⟩
    · rcases h.after_span hacc with hh | ⟨rfl, hh⟩
      · left
        cases lit with
        | nil => cases hh
        | cons c l => simpa using hh
      · left
        rcases hh with hh | hh | hh
        · cases hh
        · simpa using hh
        · exact absurd (by simpa using hh) hs

/-! ## Templates -/

theorem compile_head {pattern : String} {t : Template} (h : Template.compile pattern = .ok t) :
    ∃ c rest, pattern.toList = c :: rest ∧ (c = '/' ∨ c = '*') := by
  unfold Template.compile at h
  split at h
  · cases h
  · rename_i c rest hcs
    split_ifs at h with hc
    exact ⟨c, rest, hcs, hc⟩

/-- A route read from `pattern` without loss: written back, its tokens give the template without
the `/` the root owns (or the template itself, `*`); literal text is never empty and holds no
`*`; a span's text starts with `:`; two literal texts never follow each other, and after a span
comes the end, the wildcard or literal text from a `/`; the wildcard stands last, so at most
once; and the route's parameter names are those its spans declare, read again from each span's
text, with `*` for the wildcard. -/
structure Route.ReadWithoutLoss (pattern : String) (r : Route) : Prop where
  render : "/" ++ r.render = pattern ∨ pattern.toList.head? = some '*' ∧ r.render = pattern
  text : ∀ s, Token.text s ∈ r.tokens → s ≠ "" ∧ '*' ∉ s.toList
  source : ∀ span, Token.param span ∈ r.tokens → span.source.toList.head? = some ':'
  chain : r.tokens.IsChain Token.Precedes
  wildcard_last : ∀ i, r.tokens[i]? = some Token.wildcard → i + 1 = r.tokens.length
  params : r.params = r.tokens.flatMap Token.names

/-- Every template that compiles to a route is read without loss. -/
theorem compile_route_reads_without_loss {pattern : String} {r : Route}
    (h : Template.compile pattern = .ok (.route r)) : r.ReadWithoutLoss pattern := by
  have hread := compile_route h
  obtain ⟨c, rest, hcs, hc⟩ := compile_head h
  unfold Route.ofTemplate at hread
  -- the body the reader reads: the template after its `/`, or all of it
  obtain ⟨body, hbody, hread⟩ : ∃ body, (pattern.toList = '/' :: body ∨
      pattern.toList.head? = some '*' ∧ pattern.toList = body) ∧
      readTokens pattern body [] [] [] = .ok r := by
    rw [hcs] at hread
    rcases hc with rfl | rfl
    · exact ⟨rest, .inl hcs, hread⟩
    · exact ⟨'*' :: rest, .inr ⟨by simp [hcs], hcs⟩, hread⟩
  obtain ⟨hrender, hwf, hnames⟩ :=
    readTokens_rendering pattern body body [] [] [] (Rendering.start body) r hread
  have htext : r.render.toList = body := by
    rw [← hrender, Route.render, String.toList_join, List.flatMap_map]
    rfl
  refine ⟨?_, fun s hs => ⟨fun he => hwf.text_ne s hs (by simp [he]), hwf.text_no_star s hs⟩,
    hwf.source_colon, hwf.chain, fun i hi => hwf.wildcard_last hi, hnames⟩
  rcases hbody with hbody | ⟨hstar, hbody⟩
  · left
    apply String.ext
    simp [htext, hbody]
  · exact .inr ⟨hstar, String.ext (htext.trans hbody.symm)⟩

/-- A template with literal text, a chained span and the wildcard compiles to a route read
without loss; the span's names are read again from `:hour-:minute`. -/
theorem chained_span_template_reads_without_loss :
    let r : Route := ⟨[.text "at/", .param ⟨some "^(.*?)-(-|(?:(?!-).)*)$", none, ":hour-:minute"⟩,
      .text "/", .wildcard], ["hour", "minute", "*"]⟩
    Template.compile "/at/:hour-:minute/*" = .ok (.route r) ∧ r.ReadWithoutLoss "/at/:hour-:minute/*" := by
  intro r
  have h : Template.compile "/at/:hour-:minute/*" = .ok (.route r) := by decide +kernel
  exact ⟨h, compile_route_reads_without_loss h⟩

end Routing
