import Mathlib.Algebra.Group.Nat.Even
import Mathlib.Data.List.Induction
import Routing.Proofs.Trie.Priority
/-!
# A span's suffix is written at the end of its regex

The regex of a parameter span is `^`, the groups of its parameters with the quoted literals
between them, the quoted suffix, and `$`. Every group ends with a `)` that an even number of
backslashes precedes (`EndsGroup`): a constraint is read with each backslash taken together with
the character after it (`closeBraceFrom_even`), and trimming its anchors keeps that
(`even_backslashRun_trimAnchors`). A quoted text that ends with `)` has an odd number of
backslashes before it, since `)` is quoted. So the quoted suffix after the last group is read off
the regex from its end (`quoteChars_eq_of_endsGroup`): two spans with the same regex text have the
same suffix (`SuffixIn.unique`, `ofTemplate_suffixIn`), and a parameter node, which keeps the regex
text and suffix of the span that made it, is the same whichever span with that regex made it.
-/

namespace Routing

open Routing.Regex

/-! ## Runs of backslashes -/

/-- The number of backslashes at the end of a text. -/
def backslashRun (l : List Char) : Nat := l.foldl (fun n c => if c = '\\' then n + 1 else 0) 0

theorem backslashRun_concat (l : List Char) (c : Char) :
    backslashRun (l ++ [c]) = if c = '\\' then backslashRun l + 1 else 0 := by
  simp [backslashRun, List.foldl_append]

theorem backslashRun_append_cons (l r : List Char) {c : Char} (hc : c ≠ '\\') :
    backslashRun (l ++ c :: r) = backslashRun r := by
  simp [backslashRun, List.foldl_append, hc]

theorem backslashRun_cons_of_ne {c : Char} (hc : c ≠ '\\') (l : List Char) :
    backslashRun (c :: l) = backslashRun l := by
  simpa using backslashRun_append_cons [] l hc

theorem even_backslashRun_push {c : Char} (hc : c ≠ '\\') (acc : List Char) :
    Even (backslashRun (c :: acc).reverse) := by
  rw [List.reverse_cons, backslashRun_concat, if_neg hc]
  exact ⟨0, rfl⟩

theorem even_backslashRun_concat_of_ne (l : List Char) {c : Char} (hc : c ≠ '\\') :
    Even (backslashRun (l ++ [c])) := by
  rw [backslashRun_concat, if_neg hc]
  exact ⟨0, rfl⟩

/-- A regex text that ends by closing a group: a `)` with an even number of backslashes before
it. -/
def EndsGroup (b : List Char) : Prop := ∃ p, b = p ++ [')'] ∧ Even (backslashRun p)

theorem EndsGroup.backslashRun {b : List Char} (h : EndsGroup b) : backslashRun b = 0 := by
  obtain ⟨p, rfl, -⟩ := h
  simp [backslashRun_concat]

/-! ## Quoted text after a closed group -/

theorem quoteChars_singleton (c : Char) :
    quoteChars [c] = (if isMeta c then ['\\'] else []) ++ [c] := by
  by_cases h : isMeta c <;> simp [quoteChars, h]

theorem even_backslashRun_quoteChars {p : List Char} (hp : Even (backslashRun p)) (s : List Char) :
    Even (backslashRun (p ++ quoteChars s)) := by
  induction s using List.reverseRecOn with
  | nil => simpa [quoteChars] using hp
  | append_singleton s c ih =>
    rw [quoteChars_append, quoteChars_singleton, ← List.append_assoc, ← List.append_assoc,
      backslashRun_concat]
    by_cases hc : c = '\\'
    · subst hc
      have hmeta : isMeta '\\' = true := by decide
      simp only [hmeta, if_true, backslashRun_concat]
      rw [Nat.even_add_one, Nat.even_add_one, not_not]
      exact ih
    · simp [hc]

/-- Quoted text that follows a closed group never closes a group itself: its last `)` is quoted,
so an odd number of backslashes stands before it. -/
theorem not_endsGroup_append_quoteChars {p s : List Char} (hp : EndsGroup p) (hs : s ≠ []) :
    ¬ EndsGroup (p ++ quoteChars s) := by
  rintro ⟨q, hq, heven⟩
  obtain ⟨s, c, rfl⟩ := List.eq_nil_or_concat s |>.resolve_left hs
  rw [List.concat_eq_append, quoteChars_append, quoteChars_singleton, ← List.append_assoc, ← List.append_assoc] at hq
  obtain ⟨hinit, hc⟩ := List.append_inj' hq rfl
  obtain rfl : c = ')' := by simpa using hc
  have hmeta : isMeta ')' = true := by decide
  simp only [hmeta, if_true] at hinit
  rw [← hinit, backslashRun_concat, if_pos rfl, Nat.even_add_one] at heven
  exact heven (even_backslashRun_quoteChars (by rw [hp.backslashRun]; exact ⟨0, rfl⟩) s)

theorem quoteChars_eq_of_endsGroup {p₁ p₂ : List Char} (h₁ : EndsGroup p₁) (h₂ : EndsGroup p₂) :
    ∀ {s₁ s₂ : List Char}, p₁ ++ quoteChars s₁ = p₂ ++ quoteChars s₂ → s₁ = s₂ := by
  intro s₁
  induction s₁ using List.reverseRecOn with
  | nil =>
    intro s₂ h
    rcases List.eq_nil_or_concat s₂ with rfl | ⟨s₂, b, rfl⟩
    · rfl
    · simp only [quoteChars, List.append_nil, List.concat_eq_append] at h
      exact absurd (h ▸ h₁) (not_endsGroup_append_quoteChars h₂ (by simp))
  | append_singleton s₁ a ih =>
    intro s₂ h
    rcases List.eq_nil_or_concat s₂ with rfl | ⟨s₂, b, rfl⟩
    · simp only [quoteChars, List.append_nil] at h
      exact absurd (h ▸ h₂) (not_endsGroup_append_quoteChars h₁ (by simp))
    · rw [List.concat_eq_append] at h ⊢
      rw [quoteChars_append, quoteChars_append, quoteChars_singleton, quoteChars_singleton,
        ← List.append_assoc, ← List.append_assoc, ← List.append_assoc, ← List.append_assoc] at h
      obtain ⟨h', hab⟩ := List.append_inj' h rfl
      obtain rfl : a = b := by simpa using hab
      rw [ih (List.append_cancel_right h')]

/-! ## The groups of a span's regex -/

/-- A constraint read up to its closing brace ends in an even run of backslashes: a backslash is
always read together with the character after it. -/
theorem closeBraceFrom_even : ∀ (cs : List Char) (depth : Nat) (acc inner after : List Char),
    closeBraceFrom cs depth acc = some (inner, after) → Even (backslashRun acc.reverse) →
      Even (backslashRun inner) := by
  intro cs depth acc
  fun_induction closeBraceFrom cs depth acc with
  | case1 | case2 => intro inner after h; cases h
  | case3 c rest depth acc ih =>
    -- an escaped character: two more backslashes when it is a backslash, none otherwise
    intro inner after h hacc
    refine ih inner after h ?_
    by_cases hc : c = '\\'
    · subst hc
      have hrev : ('\\' :: '\\' :: acc).reverse = acc.reverse ++ ['\\'] ++ ['\\'] := by simp
      rw [hrev, backslashRun_concat, backslashRun_concat, if_pos rfl, if_pos rfl]
      rw [Nat.even_add_one, Nat.even_add_one, not_not]
      exact hacc
    · exact even_backslashRun_push hc _
  | case4 rest depth acc _ _ ih =>
    exact fun inner after h _ => ih inner after h (even_backslashRun_push (by decide) acc)
  | case5 rest depth acc =>
    intro inner after h hacc
    cases h
    exact hacc
  | case6 rest depth acc _ _ _ _ ih =>
    exact fun inner after h _ => ih inner after h (even_backslashRun_push (by decide) acc)
  | case7 c rest depth acc hnil hcons _ _ ih =>
    have hc : c ≠ '\\' := by
      intro hc
      cases rest with
      | nil => exact hnil hc rfl
      | cons d rest => exact hcons d rest hc rfl
    exact fun inner after h _ => ih inner after h (even_backslashRun_push hc acc)

/-- Trimming the anchors of a constraint keeps its final run of backslashes even: a `^` is no
backslash, and a `$` goes only when no backslash stands before it. -/
theorem even_backslashRun_trimAnchors {c : List Char} (hc : Even (backslashRun c)) :
    Even (backslashRun (trimAnchors c)) := by
  -- dropping a leading `^` keeps the final run
  have hstart : ∀ t, c = '^' :: t → Even (backslashRun t) := by
    rintro t rfl
    rwa [backslashRun_cons_of_ne (by decide)] at hc
  unfold trimAnchors
  dsimp only
  split
  · rename_i t _
    split
    · split
      · exact hstart _ rfl
      · exact hc
    · rename_i hnot
      cases t with
      | nil => exact ⟨0, rfl⟩
      | cons d t => exact even_backslashRun_push (fun h => hnot t (h ▸ rfl)) t
  · split
    · exact hstart _ rfl
    · exact hc

/-- Every group a parameter adds closes the regex so far. -/
theorem readGroup_endsGroup {pattern : String} {afterName after : List Char} {st st' : SpanRegex}
    (h : readGroup pattern afterName st = .ok (st', after)) : EndsGroup st'.body.toList := by
  unfold readGroup at h
  split at h
  · -- a constraint: its text, anchors trimmed, in a group
    rename_i t
    rcases hclose : closeBrace t with _ | ⟨inner, rest⟩ <;> rw [hclose] at h <;> cases h
    refine ⟨st.body.toList ++ '(' :: trimAnchors inner, by simp, ?_⟩
    rw [backslashRun_append_cons _ _ (by decide)]
    exact even_backslashRun_trimAnchors (closeBraceFrom_even t 1 [] inner _ hclose ⟨0, rfl⟩)
  · split at h <;> cases h
    · exact ⟨st.body.toList ++ ['(', '.', '*'] ++ ['?'], by simp,
        even_backslashRun_concat_of_ne _ (by decide)⟩
    · exact ⟨st.body.toList ++ '(' :: (st.separator.toList ++ "|(?:(?!".toList ++
          st.separator.toList ++ [')', '.', ')']) ++ ['*'], by simp [separatedGroup],
        even_backslashRun_concat_of_ne _ (by decide)⟩

theorem readSpan_body (pattern : String) : ∀ (cs : List Char) (st st' : SpanRegex) (lit rest : List Char),
    readSpan pattern cs st = .ok (st', lit, rest) →
      ∃ p, EndsGroup p ∧ st'.body.toList = p ++ quoteChars lit := by
  intro cs
  induction hn : cs.length using Nat.strongRecOn generalizing cs with
  | _ n ih =>
    intro st st' lit rest h
    rw [readSpan] at h
    obtain ⟨⟨st₁, afterGroup⟩, hgroup, h⟩ := Except.bind_eq_ok.1 h
    dsimp only at h
    generalize spanLiteral afterGroup = sl at h
    obtain ⟨l, rest'⟩ := sl
    dsimp only at h
    split at h
    · -- a chained parameter: the rest of the span is read the same way
      rename_i more
      split at h
      · exact ih more.length (by omega) more rfl _ _ _ _ h
      · cases h
    · -- the last parameter: its group, then its quoted literal
      cases h
      exact ⟨st₁.body.toList, readGroup_endsGroup hgroup, by simp [quote]⟩

/-! ## The suffix a regex writes -/

/-- The suffix a span's regex text writes: without a regex, none; with one, the regex is
`^`, a text that closes a group, the quoted suffix, and `$`. -/
def SuffixIn (regex suffix : Option String) : Prop :=
  match regex with
  | none => suffix = none
  | some source => ∃ p lit, EndsGroup p ∧ source.toList = '^' :: (p ++ quoteChars lit ++ ['$']) ∧
      suffix = if lit = [] then none else some (String.ofList lit)

/-- A regex text writes one suffix only. -/
theorem SuffixIn.unique {regex s₁ s₂ : Option String} (h₁ : SuffixIn regex s₁)
    (h₂ : SuffixIn regex s₂) : s₁ = s₂ := by
  cases regex with
  | none => exact h₁.trans h₂.symm
  | some source =>
    obtain ⟨p₁, l₁, hp₁, hs₁, rfl⟩ := h₁
    obtain ⟨p₂, l₂, hp₂, hs₂, rfl⟩ := h₂
    have hbody := List.append_cancel_right (List.cons.inj (hs₁.symm.trans hs₂)).2
    rw [quoteChars_eq_of_endsGroup hp₁ hp₂ hbody]

theorem readParamSpan_suffixIn {pattern : String} {cs : List Char} {span : ParamSpan}
    {names : List String} {rest : List Char}
    (h : readParamSpan pattern cs = .ok (span, names, rest)) : SuffixIn span.regex span.suffix := by
  unfold readParamSpan at h
  obtain ⟨⟨st, lit, rest'⟩, hread, h⟩ := Except.bind_eq_ok.1 h
  cases h
  cases hneeded : st.needed with
  | true =>
    obtain ⟨p, hp, hbody⟩ := readSpan_body pattern cs {} st lit _ hread
    refine ⟨p, lit, hp, by simp [hbody], ?_⟩
    cases lit <;> simp
  | false =>
    have hlit : lit = [] := by
      by_contra hne
      rw [readSpan_needed pattern cs {} st lit _ hread hne] at hneeded
      cases hneeded
    simp [SuffixIn, hlit]

/-- In every route read from a template, each span's regex text writes its suffix. -/
theorem ofTemplate_suffixIn {pattern : String} {r : Route} (h : Route.ofTemplate pattern = .ok r) :
    ∀ span, .param span ∈ r.tokens → SuffixIn span.regex span.suffix :=
  readTokens_spans (fun span => SuffixIn span.regex span.suffix)
    (fun _ _ _ _ _ hspan => readParamSpan_suffixIn hspan) pattern _ [] [] []
    (fun _ h => absurd h List.not_mem_nil) r h

end Routing
