import Routing.Proofs.Regex.Chain
/-!
# Quoted text matches only itself

`quote t` writes a backslash before each character of `t` that has a meaning of its own in a
regex, so that every character of `t` stands for itself. Anchored at both ends around a
non-capturing group, the regex `^(?:quote t)$` matches a text exactly when the text is `t`
(`anchored_quote_matches_only_itself`), whatever characters `t` holds: backslashes, braces that
would spell a count, characters outside ASCII.

The reader reads the quoted text back as the characters of `t` inside whatever group is open
(`Reader.run_quoteChars`); the start anchor lets the search try the first position only
(`search_anchored`); a literal text matches only where the text has it
(`prefix_of_matchSeq_literal`), and the end anchor then asks that nothing follows.
-/

namespace Routing.Regex

/-- What follows the start anchor in `^(?:q)$` once read, for the quoted text of `t`: the
group's body, which the reader drops when the group is empty, then the end anchor. -/
def anchoredTail (t : List Char) : List Regex :=
  (if t = [] then [] else [seqOf (literal t)]) ++ [.assert .endText]

namespace Reader

/-- `^(?:` puts the start anchor in front and opens a non-capturing group. -/
theorem run_anchoredOpen (rest : List Char) :
    ({} : Reader).run ('^' :: '(' :: '?' :: ':' :: rest) =
      ({ frames := [⟨.plain, {}, { items := [.assert .startText], last := .fixed }⟩] } : Reader).run
        rest := by
  have h₁ : ({} : Reader).step '^' ('(' :: '?' :: ':' :: rest) =
      .ok ({ cur := { items := [.assert .startText], last := .fixed } }, '(' :: '?' :: ':' :: rest) :=
    rfl
  have h₂ : ({ cur := { items := [.assert .startText], last := .fixed } } : Reader).step '('
      ('?' :: ':' :: rest) =
      .ok ({ frames := [⟨.plain, {}, { items := [.assert .startText], last := .fixed }⟩] }, rest) :=
    rfl
  rw [run_of_step h₁ (Nat.le_refl _), run_of_step h₂ (by simp only [List.length_cons]; omega)]

/-- Closing the group of a quoted text and reading the end anchor leaves the anchors around the
text's characters; an empty group adds nothing. -/
theorem run_anchoredClose (t : List Char) :
    ({ frames := [⟨.plain, {}, { items := [.assert .startText], last := .fixed }⟩]
       cur := { items := (literal t).reverse, last := if t = [] then .none else .atom } } :
      Reader).run [')', '$'] = .ok ⟨seqOf (.assert .startText :: anchoredTail t), 0⟩ := by
  by_cases ht : t = []
  · -- the empty group adds nothing
    subst ht
    have h₁ : ({ frames := [⟨.plain, {}, { items := [.assert .startText], last := .fixed }⟩] } :
        Reader).step ')' ['$'] = .ok ({ cur := { items := [.assert .startText], last := .fixed } }, ['$']) :=
      rfl
    have h₂ : ({ cur := { items := [.assert .startText], last := .fixed } } : Reader).step '$' [] =
        .ok ({ cur := { items := [.assert .endText, .assert .startText], last := .fixed } }, []) := rfl
    rw [if_pos rfl]
    simp only [literal_nil, List.reverse_nil]
    rw [run_of_step h₁ (Nat.le_refl _), run_of_step h₂ (by simp), run_nil_of_top _ 0 rfl]
    rfl
  · -- the group's body is the sequence of the text's characters
    let body := seqOf (literal t)
    have hbody : ({ items := (literal t).reverse, last := .atom } : Branches).toRegex = body := by
      simp [Branches.toRegex, Branches.current, altOf, body]
    have hblank : ({ items := (literal t).reverse, last := .atom } : Branches).isBlank = false := by
      simpa [Branches.isBlank, literal] using ht
    let closed : Branches :=
      { items := [body, .assert .startText], last := if body.repeatable then .atom else .fixed }
    let ended : Branches := { items := [.assert .endText, body, .assert .startText], last := .fixed }
    have h₁ : ({ frames := [⟨.plain, {}, { items := [.assert .startText], last := .fixed }⟩],
                 cur := { items := (literal t).reverse, last := .atom } } : Reader).step ')' ['$'] =
        .ok ({ cur := closed }, ['$']) := by
      simp only [step, closeGroup, hbody, hblank]
      rfl
    have h₂ : ({ cur := closed } : Reader).step '$' [] = .ok ({ cur := ended }, []) := rfl
    have hended : ended.toRegex = seqOf (.assert .startText :: anchoredTail t) := by
      simp [ended, Branches.toRegex, Branches.current, altOf, anchoredTail, ht, body]
    rw [if_neg ht, run_of_step h₁ (by simp), run_of_step h₂ (by simp),
      run_nil_of_top _ 0 (by simp [hended, seqOf, anchoredTail, ht, Regex.maxBackref,
        maxBackref_literal]), hended]

end Reader

/-- `^(?:quote t)$` reads as the start anchor, the characters of `t` and the end anchor, with no
capture group. -/
theorem parse_anchoredQuote (t : String) :
    Pattern.parse ("^(?:" ++ quote t ++ ")$") =
      .ok ⟨seqOf (.assert .startText :: anchoredTail t.toList), 0⟩ := by
  have htext : ("^(?:" ++ quote t ++ ")$").toList =
      '^' :: '(' :: '?' :: ':' :: (quoteChars t.toList ++ [')', '$']) := by
    simp [quote]
  rw [Pattern.parse, htext, Reader.run_anchoredOpen, Reader.run_quoteChars rfl]
  simp only [List.append_nil]
  exact Reader.run_anchoredClose t.toList

/-- Past the start anchor, the tail matches as the text's characters followed by the end anchor. -/
theorem matchSeq_anchoredTail (text : Array Char) (t : List Char) (cur : Cursor) (k : Cont) :
    matchSeq text (anchoredTail t) cur k =
      matchSeq text (literal t) cur fun next => matchSeq text [.assert .endText] next k := by
  by_cases ht : t = []
  · subst ht
    rfl
  · simp only [anchoredTail, if_neg ht, List.singleton_append, matchSeq, matchAt_seqOf]

/-- The quoted text of `t`, anchored at both ends, matches a text exactly when the text is `t`. -/
theorem anchored_quote_matches_only_itself (t : String) :
    ∃ P, Pattern.parse ("^(?:" ++ quote t ++ ")$") = .ok P ∧ P.groups = 0 ∧
      ∀ s, P.isMatch s = true ↔ s = t := by
  refine ⟨_, parse_anchoredQuote t, rfl, fun s => ?_⟩
  let text := s.toList.toArray
  -- the search starts at the first character only, where the start anchor holds
  have hsearch : (⟨seqOf (.assert .startText :: anchoredTail t.toList), 0⟩ : Pattern).isMatch s =
      (matchSeq text (literal t.toList) ⟨0, .replicate 1 none⟩ fun next =>
        matchSeq text [.assert .endText] next some).isSome := by
    rw [Pattern.isMatch, search_anchored, Option.isSome_map, matchAt_seqOf]
    simp only [matchSeq, Regex.matchAt, Assertion.holds, beq_self_eq_true, if_true]
    rw [matchSeq_anchoredTail]
    rfl
  rw [hsearch]
  constructor
  · intro h
    obtain ⟨res, hres⟩ := Option.isSome_iff_exists.1 h
    have hpre : t.toList <+: text.toList.drop 0 := prefix_of_matchSeq_literal hres
    rw [matchSeq_literal hpre] at hres
    -- the end anchor holds right after `t`, so the text ends there
    have hend : t.toList.length = s.toList.length := by
      simpa [matchSeq, Regex.matchAt, Assertion.holds, text] using Option.isSome_of_eq_some hres
    have hpre' : t.toList <+: s.toList := by simpa [text] using hpre
    exact (String.toList_inj.1 (hpre'.eq_of_length hend)).symm
  · rintro rfl
    have hpre : s.toList <+: text.toList.drop 0 := by simp [text]
    rw [matchSeq_literal hpre]
    simp [matchSeq, Regex.matchAt, Assertion.holds, text]

end Routing.Regex
