import Mathlib.Data.List.Forall2
import Routing.Proofs.Regex.Backtracking
/-!
# The regex of a chained span

A parameter span such as `:hour-:minute` is matched by one regex with a group per parameter: the
first parameter matches lazily, `(.*?)`, and each later one, after the literal separator `d`
before it, matches `d` itself or a run at none of whose characters `d` starts,
`(d|(?:(?!d).)*)`; the literal after each parameter follows its group, quoted, and the whole is
anchored at both ends. The literals are the separators and, after the last parameter, a suffix.

The regex reads back as groups and literals in that order (`parse_chainText`). It works as a
parser of the segments the span describes (`chainPattern_splits`): a match of a segment cuts it
into the groups' texts with the literals between them, and a segment made of values with none of
the literals' characters (nor a line feed) in them, joined by the literals, is matched with
exactly these values as its groups. The second half comes from the first: the matcher tries every
way through the regex, so it finds the cut into the values; and no other cut exists, since a cut
puts every character of a literal in a literal, so that the values end where the literals start.
-/

namespace Routing.Regex

/-! ## The regex and its text -/

/-- `.*?`: any characters but a line feed, as few as possible. -/
def lazyAny : Regex := .loop (.any false) 0 none false

/-- `d|(?:(?!d).)*`: the literal `d` itself, or as many characters as possible, none of them a
line feed and at none of which `d` starts. -/
def separated (d : List Char) : Regex :=
  .alt (seqOf (literal d))
    (.loop (.concat (.lookahead true (seqOf (literal d))) (.any false)) 0 none true)

/-- Groups numbered from `i`, each with its body and followed by its literal. -/
def groupsThen (i : Nat) : List (Regex × List Char) → List Regex
  | [] => []
  | (body, d) :: rest => .group i body :: literal d ++ groupsThen (i + 1) rest

/-- The group bodies and literals of the parameters after the first: each matches separated by
the literal before it. -/
def separatedParts (prev : List Char) : List (List Char) → List (Regex × List Char)
  | [] => []
  | d :: ds => (separated prev, d) :: separatedParts d ds

/-- The regex of a span whose parameters are followed by the literals `d :: ds`. -/
def chainPattern (d : List Char) (ds : List (List Char)) : Pattern :=
  ⟨seqOf (.assert .startText :: (groupsThen 1 ((lazyAny, d) :: separatedParts d ds) ++
    [.assert .endText])), ds.length + 1⟩

/-- The text of `separated d`, as the template reader writes it. -/
def separatedText (d : List Char) : List Char :=
  '(' :: (quoteChars d ++ '|' :: '(' :: '?' :: ':' :: '(' :: '?' :: '!' ::
    (quoteChars d ++ [')', '.', ')', '*', ')']))

/-- The text of the groups and literals after the first parameter. -/
def separatedPartsText (prev : List Char) : List (List Char) → List Char
  | [] => []
  | d :: ds => separatedText prev ++ quoteChars d ++ separatedPartsText d ds

/-- The text of `chainPattern d ds`. -/
def chainText (d : List Char) (ds : List (List Char)) : List Char :=
  '^' :: '(' :: '.' :: '*' :: '?' :: ')' :: (quoteChars d ++ separatedPartsText d ds ++ ['$'])

/-! ## Reading the text -/

namespace Reader

theorem run_lazyGroup (b : Branches) (g : Nat) (rest : List Char) :
    ({ cur := b, groups := g } : Reader).run ('(' :: '.' :: '*' :: '?' :: ')' :: rest) =
      ({ cur := { b with items := .group (g + 1) lazyAny :: b.items, last := .atom }
         groups := g + 1 } : Reader).run rest := by
  let f : Frame := ⟨.capture (g + 1), {}, b⟩
  have h₁ : ({ cur := b, groups := g } : Reader).step '(' ('.' :: '*' :: '?' :: ')' :: rest) =
      .ok ({ frames := [f], groups := g + 1 }, '.' :: '*' :: '?' :: ')' :: rest) := rfl
  have h₂ : ({ frames := [f], groups := g + 1 } : Reader).step '.' ('*' :: '?' :: ')' :: rest) =
      .ok ({ frames := [f], cur := { items := [.any false], last := .atom }, groups := g + 1 },
        '*' :: '?' :: ')' :: rest) := rfl
  have h₃ : ({ frames := [f], cur := { items := [.any false], last := .atom }, groups := g + 1 } :
      Reader).step '*' ('?' :: ')' :: rest) =
      .ok ({ frames := [f], cur := { items := [lazyAny] }, groups := g + 1 }, ')' :: rest) := rfl
  have h₄ : ({ frames := [f], cur := { items := [lazyAny] }, groups := g + 1 } : Reader).step ')' rest =
      .ok ({ cur := { b with items := .group (g + 1) lazyAny :: b.items, last := .atom }
             groups := g + 1 }, rest) := rfl
  rw [run_of_step h₁ (by simp), run_of_step h₂ (by simp), run_of_step h₃ (by simp),
    run_of_step h₄ (Nat.le_refl _)]

theorem step_openCapture (b : Branches) (g : Nat) {cs : List Char} (hcs : ∀ t, cs ≠ '?' :: t) :
    ({ cur := b, groups := g } : Reader).step '(' cs =
      .ok ({ frames := [⟨.capture (g + 1), {}, b⟩], groups := g + 1 }, cs) := by
  cases cs with
  | nil => rfl
  | cons c t =>
    have hc : c ≠ '?' := fun h => hcs t (by rw [h])
    simp [step, openGroup, hc, maxDepth]
    rfl

/-- The text of `separated d` reads as one group with that body. The reader goes through three
open groups: the capture, the non-capturing group of the loop, and the lookahead. -/
theorem run_separatedText (b : Branches) (g : Nat) {d : List Char} (hd : d ≠ []) (rest : List Char) :
    ({ cur := b, groups := g } : Reader).run (separatedText d ++ rest) =
      ({ cur := { b with items := .group (g + 1) (separated d) :: b.items, last := .atom }
         groups := g + 1 } : Reader).run rest := by
  let f : Frame := ⟨.capture (g + 1), {}, b⟩
  let alts : Branches := { alts := [seqOf (literal d)] }
  let plain : Frame := ⟨.plain, {}, alts⟩
  let ahead : Regex := .lookahead true (seqOf (literal d))
  let quoted : Branches := { items := (literal d).reverse, last := .atom }
  let lone : Branches := { items := [ahead], last := .fixed }
  let dot : Branches := { items := [.any false, ahead], last := .atom }
  let turn : Branches := { alts with items := [.concat ahead (.any false)], last := .atom }
  let looped : Branches := { alts with items := [.loop (.concat ahead (.any false)) 0 none true] }
  let done : Branches := { b with items := .group (g + 1) (separated d) :: b.items, last := .atom }
  let close := ')' :: '.' :: ')' :: '*' :: ')' :: rest
  have hnil : (if d = [] then Last.none else .atom) = .atom := if_neg hd
  have htext : separatedText d ++ rest = '(' :: (quoteChars d ++ '|' :: '(' :: '?' :: ':' :: '(' ::
      '?' :: '!' :: (quoteChars d ++ close)) := by
    simp [separatedText, close]
  have h₁ := step_openCapture b g (quoteChars_ne_question hd ('|' :: '(' :: '?' :: ':' :: '(' ::
    '?' :: '!' :: (quoteChars d ++ close)))
  rw [htext, run_of_step h₁ (Nat.le_refl _), run_quoteChars rfl]
  simp only [List.append_nil, hnil]
  -- the first alternative is the literal; the second opens the loop's group and the lookahead
  have h₂ : ({ frames := [f], cur := quoted, groups := g + 1 } : Reader).step '|'
      ('(' :: '?' :: ':' :: '(' :: '?' :: '!' :: (quoteChars d ++ close)) =
      .ok ({ frames := [f], cur := alts, groups := g + 1 },
        '(' :: '?' :: ':' :: '(' :: '?' :: '!' :: (quoteChars d ++ close)) := by
    simp [step, Branches.current, alts, quoted, literal]
    rfl
  have h₃ : ({ frames := [f], cur := alts, groups := g + 1 } : Reader).step '('
      ('?' :: ':' :: '(' :: '?' :: '!' :: (quoteChars d ++ close)) =
      .ok ({ frames := [plain, f], groups := g + 1 }, '(' :: '?' :: '!' :: (quoteChars d ++ close)) :=
    rfl
  have h₄ : ({ frames := [plain, f], groups := g + 1 } : Reader).step '('
      ('?' :: '!' :: (quoteChars d ++ close)) =
      .ok ({ frames := [⟨.lookahead true, {}, {}⟩, plain, f], groups := g + 1 }, quoteChars d ++ close) :=
    rfl
  rw [run_of_step h₂ (by simp), run_of_step h₃ (by simp), run_of_step h₄ (by simp; omega),
    run_quoteChars rfl]
  simp only [List.append_nil, hnil]
  -- closing the lookahead, the loop's group and the capture
  have h₅ : ({ frames := [⟨.lookahead true, {}, {}⟩, plain, f], cur := quoted, groups := g + 1 } :
      Reader).step ')' ('.' :: ')' :: '*' :: ')' :: rest) =
      .ok ({ frames := [plain, f], cur := lone, groups := g + 1 }, '.' :: ')' :: '*' :: ')' :: rest) := by
    simp [step, closeGroup, Branches.toRegex, Branches.current, altOf, push, quoted, lone, ahead,
      repeatable]
    rfl
  have h₆ : ({ frames := [plain, f], cur := lone, groups := g + 1 } : Reader).step '.'
      (')' :: '*' :: ')' :: rest) =
      .ok ({ frames := [plain, f], cur := dot, groups := g + 1 }, ')' :: '*' :: ')' :: rest) := rfl
  have h₇ : ({ frames := [plain, f], cur := dot, groups := g + 1 } : Reader).step ')'
      ('*' :: ')' :: rest) = .ok ({ frames := [f], cur := turn, groups := g + 1 }, '*' :: ')' :: rest) :=
    rfl
  have h₈ : ({ frames := [f], cur := turn, groups := g + 1 } : Reader).step '*' (')' :: rest) =
      .ok ({ frames := [f], cur := looped, groups := g + 1 }, ')' :: rest) := rfl
  have h₉ : ({ frames := [f], cur := looped, groups := g + 1 } : Reader).step ')' rest =
      .ok ({ cur := done, groups := g + 1 }, rest) := rfl
  rw [run_of_step h₅ (by simp), run_of_step h₆ (by simp), run_of_step h₇ (by simp),
    run_of_step h₈ (by simp), run_of_step h₉ (Nat.le_refl _)]

/-- The groups after the first parameter read as their groups and literals, when every separator
is not empty. The induction is on the literals. -/
theorem run_separatedPartsText : ∀ (ds : List (List Char)) (prev : List Char) (b : Branches)
    (g : Nat) (rest : List Char), (∀ x ∈ (prev :: ds).dropLast, x ≠ []) →
    ({ cur := b, groups := g } : Reader).run (separatedPartsText prev ds ++ rest) =
      ({ cur := { b with
                  items := (groupsThen (g + 1) (separatedParts prev ds)).reverse ++ b.items
                  last := if ds = [] then b.last else .atom }
         groups := g + ds.length } : Reader).run rest
  | [], _, b, g, rest, _ => rfl
  | d :: ds, prev, b, g, rest, hsep => by
    have hprev : prev ≠ [] := hsep prev (by simp)
    have hds : ∀ x ∈ (d :: ds).dropLast, x ≠ [] := fun x hx => hsep x (by
      rw [List.dropLast_cons_of_ne_nil (List.cons_ne_nil _ _)]
      exact List.mem_cons_of_mem _ hx)
    simp only [separatedPartsText, List.append_assoc]
    rw [run_separatedText b g hprev, run_quoteChars rfl]
    dsimp only
    rw [run_separatedPartsText ds d _ (g + 1) rest hds]
    have hg : g + 1 + ds.length = g + (ds.length + 1) := by omega
    simp only [separatedParts, groupsThen, List.reverse_cons, List.reverse_append, List.append_assoc,
      List.singleton_append, List.length_cons, hg, ite_self, reduceCtorEq, if_false]

end Reader

theorem maxBackref_groupsThen : ∀ (i : Nat) (parts : List (Regex × List Char)),
    (∀ part ∈ parts, part.1.maxBackref = 0) → ∀ r ∈ groupsThen i parts, r.maxBackref = 0
  | _, [], _, _, hr => by cases hr
  | i, (body, d) :: parts, h, r, hr => by
    simp only [groupsThen, List.mem_cons, List.mem_append] at hr
    rcases hr with (rfl | hr) | hr
    · exact h (body, d) List.mem_cons_self
    · obtain ⟨c, -, rfl⟩ := List.mem_map.1 hr
      rfl
    · exact maxBackref_groupsThen (i + 1) parts (fun part hp => h part (List.mem_cons_of_mem _ hp)) r hr

theorem maxBackref_separatedParts : ∀ (prev : List Char) (ds : List (List Char)),
    ∀ part ∈ separatedParts prev ds, part.1.maxBackref = 0
  | _, [], _, hp => by cases hp
  | prev, d :: ds, part, hp => by
    rcases List.mem_cons.1 hp with rfl | hp
    · simp [separated, Regex.maxBackref, maxBackref_literal]
    · exact maxBackref_separatedParts d ds part hp

/-- The text of a chained span's regex reads as its groups and literals, when every separator is
not empty. -/
theorem parse_chainText (d : List Char) (ds : List (List Char))
    (hsep : ∀ x ∈ (d :: ds).dropLast, x ≠ []) :
    Pattern.parse (String.ofList (chainText d ds)) = .ok (chainPattern d ds) := by
  let b₀ : Branches := { items := [.assert .startText], last := .fixed }
  have h₁ : ({} : Reader).step '^' ('(' :: '.' :: '*' :: '?' :: ')' ::
      (quoteChars d ++ separatedPartsText d ds ++ ['$'])) =
      .ok ({ cur := b₀ }, '(' :: '.' :: '*' :: '?' :: ')' ::
        (quoteChars d ++ separatedPartsText d ds ++ ['$'])) := rfl
  rw [Pattern.parse, String.toList_ofList, chainText, Reader.run_of_step h₁ (Nat.le_refl _)]
  rw [show ({ cur := b₀ } : Reader) = { cur := b₀, groups := 0 } from rfl, Reader.run_lazyGroup,
    List.append_assoc, Reader.run_quoteChars rfl]
  dsimp only
  rw [Reader.run_separatedPartsText ds d _ 1 ['$'] hsep]
  -- the closing anchor, then the end of the text
  let items := (groupsThen 2 (separatedParts d ds)).reverse ++
    ((literal d).reverse ++ [.group 1 lazyAny, .assert .startText])
  let b₁ : Branches := { items, last := if ds = [] then (if d = [] then .atom else .atom) else .atom }
  let b₂ : Branches := { items := .assert .endText :: items, last := .fixed }
  have hitems : (Regex.assert .endText :: items).reverse =
      .assert .startText :: (groupsThen 1 ((lazyAny, d) :: separatedParts d ds) ++ [.assert .endText]) := by
    simp [items, groupsThen]
  have h₂ : ({ cur := b₁, groups := 1 + ds.length } : Reader).step '$' [] =
      .ok ({ cur := b₂, groups := 1 + ds.length }, []) := rfl
  show ({ cur := b₁, groups := 1 + ds.length } : Reader).run ['$'] = _
  have hback : b₂.toRegex.maxBackref = 0 := by
    simp only [b₂, Branches.toRegex, Branches.current, List.reverse_nil, List.reverse_cons,
      List.nil_append, altOf, hitems]
    refine maxBackref_seqOf fun r hr => ?_
    simp only [List.mem_cons, List.mem_append] at hr
    rcases hr with rfl | hr | rfl | hr
    · rfl
    · exact maxBackref_groupsThen 1 _ (fun part hp => by
        rcases List.mem_cons.1 hp with rfl | hp
        · rfl
        · exact maxBackref_separatedParts d ds part hp) r hr
    · rfl
    · cases hr
  rw [Reader.run_of_step h₂ (Nat.le_refl _), Reader.run_nil_of_top _ _ hback]
  simp only [b₂, Branches.toRegex, Branches.current, List.reverse_nil, List.reverse_cons,
    List.nil_append, altOf, hitems, chainPattern]
  congr 2
  omega

/-! ## Matching: where groups and literals lie -/

variable {text : Array Char}

/-- The groups with spans `sp` and the literals `ds` lie one after another in the text, from `p`
to `e`: each group runs from where the text before it ended, and its literal follows it. -/
inductive Laid (text : Array Char) : Nat → List (Nat × Nat) → List (List Char) → Nat → Prop
  | nil (p : Nat) : Laid text p [] [] p
  | cons {p q e : Nat} {sp : List (Nat × Nat)} {d : List Char} {ds : List (List Char)} :
      p ≤ q → d <+: text.toList.drop q → Laid text (q + d.length) sp ds e →
      Laid text p ((p, q) :: sp) (d :: ds) e

/-- The spans `sp` recorded for the groups numbered from `i`. -/
def recordSpans (spans : Array (Option (Nat × Nat))) (i : Nat) :
    List (Nat × Nat) → Array (Option (Nat × Nat))
  | [] => spans
  | s :: sp => recordSpans (spans.setIfInBounds i (some s)) (i + 1) sp

/-- When groups without groups inside them, each followed by its literal, match, their spans
and literals lie one after another and the spans are recorded. The induction is on the groups. -/
theorem matchSeq_groupsThen_sound : ∀ (parts : List (Regex × List Char)) (i : Nat) (cur : Cursor)
    (k : Cont) (res : Cursor), (∀ part ∈ parts, part.1.groupFree) →
    matchSeq text (groupsThen i parts) cur k = some res →
    ∃ sp e, Laid text cur.pos sp (parts.map Prod.snd) e ∧ k ⟨e, recordSpans cur.spans i sp⟩ = some res
  | [], _, cur, _, _, _, h => ⟨[], cur.pos, .nil _, h⟩
  | (body, d) :: parts, i, cur, k, res, hfree, h => by
    simp only [groupsThen, List.cons_append, matchSeq] at h
    obtain ⟨q, hq, h⟩ := matchAt_group (hfree (body, d) List.mem_cons_self) h
    rw [matchSeq_append] at h
    have hd := prefix_of_matchSeq_literal h
    rw [matchSeq_literal hd] at h
    obtain ⟨sp, e, hlaid, hk⟩ := matchSeq_groupsThen_sound parts (i + 1) _ k res
      (fun part hp => hfree part (List.mem_cons_of_mem _ hp)) h
    exact ⟨(cur.pos, q) :: sp, e, .cons hq hd hlaid, hk⟩

/-- Groups each followed by its literal match where their spans and literals lie one after
another and each group's body can match its span. The induction is on the groups. -/
theorem matchSeq_groupsThen_complete {parts : List (Regex × List Char)} {sp : List (Nat × Nat)}
    (hadmits : List.Forall₂ (fun part s => Admits text part.1 s.1 s.2) parts sp) :
    ∀ (i : Nat) (cur : Cursor) (k : Cont) (e : Nat), Laid text cur.pos sp (parts.map Prod.snd) e →
      (k ⟨e, recordSpans cur.spans i sp⟩).isSome → (matchSeq text (groupsThen i parts) cur k).isSome := by
  induction hadmits with
  | nil =>
    intro i cur k e hlaid hk
    cases hlaid
    exact hk
  | @cons part s parts sp hpart _ ih =>
    intro i cur k e hlaid hk
    obtain ⟨body, d⟩ := part
    cases hlaid with
    | cons hq hd hlaid =>
      simp only [groupsThen, List.cons_append, matchSeq]
      refine hpart.group i rfl ?_
      rw [matchSeq_append, matchSeq_literal hd]
      exact ih (i + 1) _ k e hlaid hk

/-! ## The text between the literals -/

/-- Values joined by literals: each value followed by its literal. -/
def interleave : List (List Char) → List (List Char) → List Char
  | v :: vs, d :: ds => v ++ d ++ interleave vs ds
  | _, _ => []

/-- The text a span covers. -/
def segment (text : Array Char) (s : Nat × Nat) : List Char := (text.toList.drop s.1).take (s.2 - s.1)

/-- The spans of values joined by literals, from `p`. -/
def spansOf (p : Nat) : List (List Char) → List (List Char) → List (Nat × Nat)
  | v :: vs, d :: ds => (p, p + v.length) :: spansOf (p + v.length + d.length) vs ds
  | _, _ => []

theorem Laid.length_eq {p e : Nat} {sp : List (Nat × Nat)} {ds : List (List Char)}
    (h : Laid text p sp ds e) : sp.length = ds.length := by
  induction h with
  | nil => rfl
  | cons _ _ _ ih => simp [ih]

/-- Laid groups and literals cut the text into the groups' texts joined by the literals. -/
theorem Laid.drop_eq {p e : Nat} {sp : List (Nat × Nat)} {ds : List (List Char)}
    (h : Laid text p sp ds e) :
    text.toList.drop p = interleave (sp.map (segment text)) ds ++ text.toList.drop e := by
  induction h with
  | nil => rfl
  | @cons p q e sp d ds hpq hd _ ih =>
    obtain ⟨r, hr⟩ := hd
    have hq : text.toList.drop q = d ++ text.toList.drop (q + d.length) := by
      rw [← List.drop_drop, ← hr, List.drop_left]
    calc text.toList.drop p
        = (text.toList.drop p).take (q - p) ++ (text.toList.drop p).drop (q - p) :=
          (List.take_append_drop _ _).symm
      _ = segment text (p, q) ++ text.toList.drop q := by
          rw [List.drop_drop, Nat.add_sub_cancel' hpq]
          rfl
      _ = _ := by rw [hq, ih]; simp [interleave]

/-- Values joined by literals from `p` lie where `spansOf` says. -/
theorem laid_spansOf : ∀ (vs ds : List (List Char)) (p : Nat) (rest : List Char),
    vs.length = ds.length → text.toList.drop p = interleave vs ds ++ rest →
    Laid text p (spansOf p vs ds) ds (p + (interleave vs ds).length)
  | [], [], p, _, _, _ => by
    simp only [spansOf, interleave, List.length_nil, Nat.add_zero]
    exact .nil p
  | v :: vs, d :: ds, p, rest, hlen, h => by
    simp only [interleave, List.append_assoc] at h
    have hv : text.toList.drop (p + v.length) = d ++ (interleave vs ds ++ rest) := by
      rw [← List.drop_drop, h, List.drop_left]
    have hd : text.toList.drop (p + v.length + d.length) = interleave vs ds ++ rest := by
      rw [← List.drop_drop, hv, List.drop_left]
    have hlaid := laid_spansOf vs ds _ rest (by simpa using hlen) hd
    refine .cons (Nat.le_add_right _ _) (by rw [hv]; exact List.prefix_append _ _) ?_
    simpa [interleave, Nat.add_assoc] using hlaid
  | [], _ :: _, _, _, h, _ => by simp at h
  | _ :: _, [], _, _, h, _ => by simp at h

/-! ## The groups can match values without literal characters -/

/-- The group body `body` matches every stretch of the text without a line feed and without a
character of the literals `ds`. -/
def AdmitsValues (text : Array Char) (ds : List (List Char)) (body : Regex) : Prop :=
  ∀ p q, q ≤ text.size → p ≤ q →
    (∀ j, p ≤ j → j < q → ∃ c, text.toList[j]? = some c ∧ c ≠ '\n' ∧ ∀ d ∈ ds, c ∉ d) →
    Admits text body p q

theorem admitsValues_lazyAny (ds : List (List Char)) : AdmitsValues text ds lazyAny := by
  intro p q hq hpq hchars
  refine admits_loop hq (fun j hpj hjq => ?_) hpq
  obtain ⟨c, hc, hnl, -⟩ := hchars j hpj hjq
  exact stepsOver_any hc hnl

/-- `d` does not start where the text has a character `d` does not hold. -/
theorem not_prefix_of_not_mem {d : List Char} (hd : d ≠ []) {j : Nat} {c : Char}
    (hc : text.toList[j]? = some c) (hcd : c ∉ d) : ¬ d <+: text.toList.drop j := by
  intro hpre
  obtain ⟨x, d', rfl⟩ := List.exists_cons_of_ne_nil hd
  have hlt : j < text.toList.length := (List.getElem?_eq_some_iff.1 hc).1
  rw [List.drop_eq_getElem_cons hlt, List.cons_prefix_cons] at hpre
  rw [List.getElem?_eq_getElem hlt, Option.some.injEq] at hc
  exact hcd (hpre.1 ▸ hc ▸ List.mem_cons_self)

theorem admitsValues_separated {ds : List (List Char)} {d : List Char} (hd : d ≠ []) (hmem : d ∈ ds) :
    AdmitsValues text ds (separated d) := by
  intro p q hq hpq hchars
  refine Admits.alt (admits_loop hq (fun j hpj hjq => ?_) hpq)
  obtain ⟨c, hc, hnl, hfree⟩ := hchars j hpj hjq
  -- the lookahead fails, since `d` does not start at a character it does not hold
  intro cur k hcur
  have hahead : (seqOf (literal d)).matchAt text cur some = none := by
    rw [matchAt_seqOf]
    cases hm : matchSeq text (literal d) cur some with
    | none => rfl
    | some r => exact absurd (hcur ▸ prefix_of_matchSeq_literal hm) (not_prefix_of_not_mem hd hc (hfree d hmem))
  simp only [Regex.matchAt, hahead, if_true]
  exact stepsOver_any hc hnl cur k hcur

/-- The text at position `p + j` of a text that reads `v` from `p`. -/
theorem getElem?_of_drop_eq {p j : Nat} {v r : List Char} (h : text.toList.drop p = v ++ r)
    (hj : j < v.length) : text.toList[p + j]? = v[j]? := by
  rw [← List.getElem?_drop, h, List.getElem?_append_left hj]

/-- Values without line feeds and literal characters, joined by the literals, can each be
matched by their group. The induction is on the groups. -/
theorem admits_spansOf {ds : List (List Char)} :
    ∀ (parts : List (Regex × List Char)) (vs : List (List Char)) (p : Nat) (rest : List Char),
    p ≤ text.size → parts.length = vs.length → (∀ part ∈ parts, AdmitsValues text ds part.1) →
    text.toList.drop p = interleave vs (parts.map Prod.snd) ++ rest →
    (∀ v ∈ vs, ∀ c ∈ v, c ≠ '\n' ∧ ∀ d ∈ ds, c ∉ d) →
    List.Forall₂ (fun part s => Admits text part.1 s.1 s.2) parts (spansOf p vs (parts.map Prod.snd))
  | [], [], _, _, _, _, _, _, _ => .nil
  | (body, d) :: parts, v :: vs, p, rest, hp, hlen, hadm, h, hfree => by
    simp only [List.map_cons, interleave, List.append_assoc] at h
    have hsize := congrArg List.length h
    simp only [List.length_drop, List.length_append, Array.length_toList] at hsize
    have hvlen : p + v.length ≤ text.size := by omega
    have hpart : Admits text body p (p + v.length) := by
      refine hadm (body, d) List.mem_cons_self p _ hvlen (Nat.le_add_right _ _) fun j hpj hjq => ?_
      have hj : j - p < v.length := by omega
      have hget := getElem?_of_drop_eq h hj
      rw [Nat.add_sub_cancel' hpj, List.getElem?_eq_getElem hj] at hget
      obtain ⟨hnl, hds⟩ := hfree v List.mem_cons_self _ (List.getElem_mem hj)
      exact ⟨_, hget, hnl, hds⟩
    have hnext : text.toList.drop (p + v.length + d.length) =
        interleave vs (parts.map Prod.snd) ++ rest := by
      rw [← List.drop_drop, ← List.drop_drop, h, List.drop_left, List.drop_left]
    exact .cons hpart (admits_spansOf parts vs _ rest (by dsimp only; omega) (by simpa using hlen)
      (fun part hp => hadm part (List.mem_cons_of_mem _ hp)) hnext
      (fun w hw => hfree w (List.mem_cons_of_mem _ hw)))
  | [], _ :: _, _, _, _, h, _, _, _ => by simp at h
  | _ :: _, [], _, _, _, h, _, _, _ => by simp at h

/-! ## Recorded spans and the captured texts -/

theorem size_recordSpans : ∀ (sp : List (Nat × Nat)) (spans : Array (Option (Nat × Nat))) (i : Nat),
    (recordSpans spans i sp).size = spans.size
  | [], _, _ => rfl
  | _ :: sp, spans, i => by rw [recordSpans, size_recordSpans sp, Array.size_setIfInBounds]

/-- Recording spans from `i` on leaves the entries before `i` alone. -/
theorem getElem?_recordSpans_lt : ∀ (sp : List (Nat × Nat)) (spans : Array (Option (Nat × Nat)))
    {i j : Nat}, j < i → (recordSpans spans i sp)[j]? = spans[j]?
  | [], _, _, _, _ => rfl
  | _ :: sp, spans, i, j, hj => by
    rw [recordSpans, getElem?_recordSpans_lt sp _ (Nat.lt_succ_of_lt hj),
      Array.getElem?_setIfInBounds_ne (Nat.ne_of_gt hj)]

/-- The `m`-th recorded span sits at `i + m`. -/
theorem getElem?_recordSpans : ∀ (sp : List (Nat × Nat)) (spans : Array (Option (Nat × Nat)))
    (i m : Nat) (hm : m < sp.length), i + sp.length ≤ spans.size →
    (recordSpans spans i sp)[i + m]? = some (some sp[m])
  | [], _, _, _, hm, _ => absurd hm (Nat.not_lt_zero _)
  | s :: sp, spans, i, 0, _, hsize => by
    have hi : i < spans.size := by simp at hsize; omega
    simp only [recordSpans, Nat.add_zero]
    rw [getElem?_recordSpans_lt sp _ (Nat.lt_add_one i), Array.getElem?_setIfInBounds_self_of_lt hi]
    rfl
  | s :: sp, spans, i, m + 1, hm, hsize => by
    rw [recordSpans, show i + (m + 1) = i + 1 + m by omega]
    exact getElem?_recordSpans sp _ (i + 1) m (by simpa using hm)
      (by simp only [List.length_cons, Array.size_setIfInBounds] at hsize ⊢; omega)

/-- A regex anchored at the start is searched for only at the start. -/
theorem search_anchored (rest : List Regex) (n : Nat) (text : Array Char) :
    (⟨seqOf (.assert .startText :: rest), n⟩ : Pattern).search text =
      ((seqOf (.assert .startText :: rest)).matchAt text ⟨0, .replicate (n + 1) none⟩ some).map
        fun cur => cur.spans.setIfInBounds 0 (some (0, cur.pos)) := by
  have hlater : ∀ start ∈ (List.range text.size).map Nat.succ,
      ((seqOf (.assert .startText :: rest)).matchAt text ⟨start, .replicate (n + 1) none⟩ some).map
        (fun cur => cur.spans.setIfInBounds 0 (some (start, cur.pos))) = none := by
    intro start hstart
    obtain ⟨j, -, rfl⟩ := List.mem_map.1 hstart
    rw [matchAt_seqOf]
    simp [matchSeq, Regex.matchAt, Assertion.holds]
  unfold Pattern.search
  simp only
  rw [List.range_succ_eq_map, List.findSome?_cons]
  split
  · rename_i h
    exact h.symm
  · rename_i h
    rw [List.findSome?_eq_none_iff.2 hlater, h]

/-! ## Only one cut -/

theorem countP_interleave (P : Char → Bool) : ∀ (xs ds : List (List Char)), xs.length = ds.length →
    (interleave xs ds).countP P = xs.flatten.countP P + ds.flatten.countP P
  | [], [], _ => rfl
  | x :: xs, d :: ds, h => by
    simp only [interleave, List.countP_append, List.flatten_cons]
    rw [countP_interleave P xs ds (Nat.succ.inj h)]
    omega
  | [], _ :: _, h => by cases h
  | _ :: _, [], h => by cases h

/-- When a text is also cut into parts without literal characters, no cut puts a literal
character in a part: every cut holds all of them in its literals. -/
theorem free_of_interleave_eq {gs vs ds : List (List Char)} (hg : gs.length = ds.length)
    (hv : vs.length = ds.length) (hfree : ∀ v ∈ vs, ∀ c ∈ v, ∀ d ∈ ds, c ∉ d)
    (h : interleave gs ds = interleave vs ds) : ∀ g ∈ gs, ∀ c ∈ g, ∀ d ∈ ds, c ∉ d := by
  let P : Char → Bool := fun c => decide (c ∈ ds.flatten)
  have hcount := congrArg (List.countP P) h
  rw [countP_interleave P gs ds hg, countP_interleave P vs ds hv] at hcount
  have hvs : vs.flatten.countP P = 0 := by
    refine List.countP_eq_zero.2 fun c hc hP => ?_
    obtain ⟨v, hv, hcv⟩ := List.mem_flatten.1 hc
    obtain ⟨d, hd, hcd⟩ := List.mem_flatten.1 (of_decide_eq_true hP)
    exact hfree v hv c hcv d hd hcd
  have hgs : gs.flatten.countP P = 0 := (Nat.add_right_cancel hcount).trans hvs
  intro g hg c hc d hd hcd
  exact List.countP_eq_zero.1 hgs c (List.mem_flatten.2 ⟨g, hg, hc⟩)
    (decide_eq_true (List.mem_flatten.2 ⟨d, hd, hcd⟩))

/-- Two cuts of a text whose first parts are followed by a character the second part does not
hold: the first part is at least as long as the second. -/
theorem length_le_of_append_eq {g v x y : List Char} {c : Char} (h : g ++ c :: x = v ++ y)
    (hc : c ∉ v) : v.length ≤ g.length := by
  refine Nat.le_of_not_lt fun hlt => hc ?_
  have h₁ : (g ++ c :: x)[g.length]? = some c := by simp
  rw [h, List.getElem?_append_left hlt, List.getElem?_eq_getElem hlt, Option.some.injEq] at h₁
  exact h₁ ▸ List.getElem_mem hlt

/-- A text is cut into parts without literal characters joined by non-empty separators (and a
last literal) in one way only: each part ends where its literal's first character is. The
induction is on the literals. -/
theorem interleave_inj : ∀ {ds gs vs : List (List Char)}, gs.length = ds.length →
    vs.length = ds.length → (∀ d ∈ ds.dropLast, d ≠ []) → (∀ g ∈ gs, ∀ c ∈ g, ∀ d ∈ ds, c ∉ d) →
    (∀ v ∈ vs, ∀ c ∈ v, ∀ d ∈ ds, c ∉ d) → interleave gs ds = interleave vs ds → gs = vs
  | [], [], [], _, _, _, _, _, _ => rfl
  | d :: ds, g :: gs, v :: vs, hg, hv, hsep, hgfree, hvfree, h => by
    simp only [interleave, List.append_assoc] at h
    cases ds with
    | nil =>
      -- the last part is followed by the last literal alone
      have hgs : gs = [] := List.eq_nil_of_length_eq_zero (by simpa using hg)
      have hvs : vs = [] := List.eq_nil_of_length_eq_zero (by simpa using hv)
      subst hgs hvs
      simp only [interleave, List.append_nil] at h
      rw [List.append_cancel_right h]
    | cons d' ds =>
      have hd : d ≠ [] := hsep d (by simp)
      obtain ⟨c, rest, rfl⟩ := List.exists_cons_of_ne_nil hd
      have hcg : c ∉ g := fun hc => hgfree g List.mem_cons_self c hc _ List.mem_cons_self List.mem_cons_self
      have hcv : c ∉ v := fun hc => hvfree v List.mem_cons_self c hc _ List.mem_cons_self List.mem_cons_self
      have hlen : g.length = v.length :=
        Nat.le_antisymm (length_le_of_append_eq h.symm hcg) (length_le_of_append_eq h hcv)
      obtain ⟨rfl, htail⟩ := List.append_inj h hlen
      have htail' := List.append_cancel_left htail
      have hrest := @interleave_inj (d' :: ds) gs vs (by simpa using hg) (by simpa using hv)
        (fun x hx => hsep x (by rw [List.dropLast_cons_of_ne_nil (List.cons_ne_nil _ _)]; exact List.mem_cons_of_mem _ hx))
        (fun x hx c hc e he => hgfree x (List.mem_cons_of_mem _ hx) c hc e (List.mem_cons_of_mem _ he))
        (fun x hx c hc e he => hvfree x (List.mem_cons_of_mem _ hx) c hc e (List.mem_cons_of_mem _ he))
        htail'
      rw [hrest]
  | [], _ :: _, _, hg, _, _, _, _, _ => by simp at hg
  | [], [], _ :: _, _, hv, _, _, _, _ => by simp at hv
  | _ :: _, [], _, hg, _, _, _, _, _ => by simp at hg
  | _ :: _, _ :: _, [], _, hv, _, _, _, _ => by simp at hv

/-! ## The chain regex cuts segments at its literals -/

theorem separatedParts_snd : ∀ (prev : List Char) (ds : List (List Char)),
    (separatedParts prev ds).map Prod.snd = ds
  | _, [] => rfl
  | _, d :: ds => by simp [separatedParts, separatedParts_snd d ds]

@[simp] theorem length_separatedParts (prev : List Char) (ds : List (List Char)) :
    (separatedParts prev ds).length = ds.length := by
  simpa using congrArg List.length (separatedParts_snd prev ds)

theorem groupFree_seqOf {l : List Regex} (h : ∀ r ∈ l, r.groupFree) : (seqOf l).groupFree := by
  induction l with
  | nil => rfl
  | cons r rs ih =>
    have hr := h r List.mem_cons_self
    have hrs := ih fun x hx => h x (List.mem_cons_of_mem r hx)
    cases rs with
    | nil => exact hr
    | cons _ _ => simp [seqOf, groupFree, hr, hrs]

theorem groupFree_separated (d : List Char) : (separated d).groupFree := by
  have hlit : (seqOf (literal d)).groupFree := groupFree_seqOf fun r hr => by
    obtain ⟨c, -, rfl⟩ := List.mem_map.1 hr
    rfl
  simp [separated, groupFree, hlit]

theorem mem_separatedParts : ∀ {prev : List Char} {ds : List (List Char)} {part : Regex × List Char},
    part ∈ separatedParts prev ds → ∃ x ∈ (prev :: ds).dropLast, part.1 = separated x
  | _, [], _, hpart => by cases hpart
  | prev, d :: ds, part, hpart => by
    rcases List.mem_cons.1 hpart with rfl | hpart
    · exact ⟨prev, by simp, rfl⟩
    · obtain ⟨x, hx, hbody⟩ := mem_separatedParts hpart
      refine ⟨x, ?_, hbody⟩
      rw [List.dropLast_cons_of_ne_nil (List.cons_ne_nil _ _)]
      exact List.mem_cons_of_mem _ hx

/-- Every group body of a chain: `.*?` first, then each separated by the literal before it. -/
theorem chainParts_body {d : List Char} {ds : List (List Char)} {part : Regex × List Char}
    (hpart : part ∈ (lazyAny, d) :: separatedParts d ds) :
    part.1 = lazyAny ∨ ∃ x ∈ (d :: ds).dropLast, part.1 = separated x := by
  rcases List.mem_cons.1 hpart with rfl | hpart
  · exact .inl rfl
  · exact .inr (mem_separatedParts hpart)

/-- A match of the chain regex lays its groups and literals over the whole text, and captures
the groups' texts. -/
theorem chainPattern_captures_sound {d : List Char} {ds : List (List Char)} {s : String}
    {groups : List (Option String)} (h : (chainPattern d ds).captures s = some groups) :
    ∃ sp, Laid s.toList.toArray 0 sp (d :: ds) s.toList.length ∧
      groups = sp.map fun ab => some (String.ofList (segment s.toList.toArray ab)) := by
  let text := s.toList.toArray
  let parts := (lazyAny, d) :: separatedParts d ds
  have hfree : ∀ part ∈ parts, part.1.groupFree := fun part hpart => by
    rcases chainParts_body hpart with h | ⟨x, -, h⟩ <;> rw [h]
    · rfl
    · exact groupFree_separated x
  unfold Pattern.captures at h
  obtain ⟨spans, hsearch, rfl⟩ := Option.map_eq_some_iff.1 h
  rw [chainPattern, search_anchored] at hsearch
  obtain ⟨cur, hmatch, rfl⟩ := Option.map_eq_some_iff.1 hsearch
  -- the start anchor holds at the start; then the groups, then the end anchor
  rw [matchAt_seqOf] at hmatch
  simp only [matchSeq, Regex.matchAt, Assertion.holds, beq_self_eq_true, if_true] at hmatch
  rw [matchSeq_append] at hmatch
  obtain ⟨sp, e, hlaid, hend⟩ := matchSeq_groupsThen_sound parts 1 _ _ cur hfree hmatch
  simp only [matchSeq, Regex.matchAt] at hend
  split at hend
  · rename_i he
    obtain rfl := Option.some.inj hend
    have he : e = s.toList.length := by simpa [Assertion.holds] using he
    subst he
    have hds : parts.map Prod.snd = d :: ds := by simp [parts, separatedParts_snd]
    rw [hds] at hlaid
    refine ⟨sp, hlaid, ?_⟩
    have hlen : sp.length = ds.length + 1 := by simpa using hlaid.length_eq
    apply List.ext_getElem
    · simp [hlen, chainPattern]
    · intro i hi _
      have hi' : i < sp.length := by simpa [hlen, chainPattern] using hi
      have hget : ((recordSpans (.replicate (ds.length + 1 + 1) none) 1 sp).setIfInBounds 0
          (some (0, s.toList.length)))[i + 1]? = some (some sp[i]) := by
        rw [Array.getElem?_setIfInBounds_ne (by omega), Nat.add_comm i 1]
        exact getElem?_recordSpans sp _ 1 i hi' (by simp [hlen]; omega)
      simp only [List.getElem_map, List.getElem_range, hget, Array.toList_extract,
        List.extract_eq_take_drop, segment]
  · cases hend

/-- The chain regex matches every segment made of values without line feeds and without the
literals' characters, joined by the literals. -/
theorem chainPattern_captures_isSome {d : List Char} {ds : List (List Char)}
    (hsep : ∀ x ∈ (d :: ds).dropLast, x ≠ []) {vs : List (List Char)} (hlen : vs.length = ds.length + 1)
    (hfree : ∀ v ∈ vs, ∀ c ∈ v, c ≠ '\n' ∧ ∀ x ∈ d :: ds, c ∉ x) :
    ((chainPattern d ds).captures (String.ofList (interleave vs (d :: ds)))).isSome := by
  let text := (String.ofList (interleave vs (d :: ds))).toList.toArray
  let parts := (lazyAny, d) :: separatedParts d ds
  have hds : parts.map Prod.snd = d :: ds := by simp [parts, separatedParts_snd]
  have htext : text.toList.drop 0 = interleave vs (d :: ds) ++ [] := by simp [text]
  have hvlen : vs.length = (d :: ds).length := by simpa using hlen
  have hlaid := laid_spansOf vs (d :: ds) 0 [] hvlen htext
  -- each group can match its value
  have hvalues : ∀ part ∈ parts, AdmitsValues text (d :: ds) part.1 := fun part hpart => by
    rcases chainParts_body hpart with h | ⟨x, hx, h⟩ <;> rw [h]
    · exact admitsValues_lazyAny _
    · exact admitsValues_separated (hsep x hx) (List.dropLast_subset _ hx)
  have hadm := admits_spansOf parts vs 0 [] (Nat.zero_le _) (by simp [parts, hlen])
    hvalues (by rw [hds]; exact htext) hfree
  rw [hds] at hadm
  have hend : (matchSeq text [.assert .endText]
      ⟨0 + (interleave vs (d :: ds)).length, recordSpans (.replicate (ds.length + 1 + 1) none) 1
        (spansOf 0 vs (d :: ds))⟩ some).isSome := by
    simp [matchSeq, Regex.matchAt, Assertion.holds, text]
  have hmatch := matchSeq_groupsThen_complete hadm 1 ⟨0, .replicate (ds.length + 1 + 1) none⟩
    (fun n => matchSeq text [.assert .endText] n some) _ (by rw [hds]; exact hlaid) hend
  unfold Pattern.captures
  rw [Option.isSome_map, chainPattern, search_anchored, Option.isSome_map, matchAt_seqOf]
  simp only [matchSeq, Regex.matchAt, Assertion.holds, beq_self_eq_true, if_true]
  rw [matchSeq_append]
  exact hmatch

/-- The pattern `P` cuts segments at the literals `ds`: a match cuts a segment into the groups'
texts joined by the literals; and a segment made of values joined by the literals, the values
without line feeds and without the literals' characters, is matched with exactly these values
as its groups. -/
structure Pattern.SplitsAt (P : Pattern) (ds : List (List Char)) : Prop where
  sound : ∀ s groups, P.captures s = some groups → ∃ vs : List (List Char), vs.length = ds.length ∧
    groups = vs.map (fun v => some (String.ofList v)) ∧ s.toList = interleave vs ds
  complete : ∀ vs : List (List Char), vs.length = ds.length →
    (∀ v ∈ vs, ∀ c ∈ v, c ≠ '\n' ∧ ∀ d ∈ ds, c ∉ d) →
    P.captures (String.ofList (interleave vs ds)) = some (vs.map fun v => some (String.ofList v))

theorem chainPattern_sound {d : List Char} {ds : List (List Char)} {s : String}
    {groups : List (Option String)} (h : (chainPattern d ds).captures s = some groups) :
    ∃ vs : List (List Char), vs.length = (d :: ds).length ∧
      groups = vs.map (fun v => some (String.ofList v)) ∧ s.toList = interleave vs (d :: ds) := by
  obtain ⟨sp, hlaid, rfl⟩ := chainPattern_captures_sound h
  refine ⟨sp.map (segment s.toList.toArray), by simp [hlaid.length_eq], by simp, ?_⟩
  have hcut := hlaid.drop_eq
  simp only [List.drop_zero, List.drop_length, List.append_nil] at hcut
  simpa using hcut

/-- The regex of a chained span works as a parser of its segments, when every separator is not
empty: it cuts a segment at its literals, and a segment of values free of the literals'
characters is cut into exactly those values. -/
theorem chainPattern_splitsAt (d : List Char) (ds : List (List Char))
    (hsep : ∀ x ∈ (d :: ds).dropLast, x ≠ []) : (chainPattern d ds).SplitsAt (d :: ds) where
  sound _ _ h := chainPattern_sound h
  complete vs hlen hfree := by
    obtain ⟨groups, hgroups⟩ := Option.isSome_iff_exists.1
      (chainPattern_captures_isSome hsep (by simpa using hlen) hfree)
    obtain ⟨gs, hglen, rfl, htext⟩ := chainPattern_sound hgroups
    -- the match cut the segment into parts; the only such cut is into the values
    rw [String.toList_ofList] at htext
    have hvfree : ∀ v ∈ vs, ∀ c ∈ v, ∀ x ∈ d :: ds, c ∉ x := fun v hv c hc => (hfree v hv c hc).2
    have hgfree := free_of_interleave_eq hglen hlen hvfree htext.symm
    rw [hgroups, interleave_inj hglen hlen (by simpa using hsep) hgfree hvfree htext.symm]

end Routing.Regex
