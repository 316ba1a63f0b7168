import Routing.Proofs.Regex.Chain
/-!
# The groups of a whole-path regex

A whole-path regex reads a path from `^` to `$`: a literal text, then a group for each parameter
with the literal text after it, then at most one `/`. A parameter's group is `[^/]+`, which stays
inside one segment; the wildcard's group comes last and is `.*`, which runs to the end of the path
(`pathPattern`).

Such a regex captures exactly the values the path was made of (`pathPattern_captures_params`,
`pathPattern_captures_rest`). A match cuts the path into the groups' texts joined by the literals,
and a parameter's text holds no `/` (`matchSeq_segmentGroups_sound`); so each parameter's text
ends where the first `/` of the literal after it stands, and the cut is the one the values make
(`interleave_slash_inj`, `interleave_end_inj`). The wildcard's `.*` is greedy: it takes the whole
rest of the path, and the optional `/` is left empty (`matchAt_restGroup`).
-/

namespace Routing.Regex

/-- The set `[^/]`: every character but `/`. -/
def notSlash : CharSet := .compl (.union .empty (.single '/'))

/-- `[^/]+`: one character or more, none of them a `/`. -/
def segmentRun : Regex := .loop (.set notSlash false) 1 none true

/-- `.*`: as many characters as there are, none of them a line feed. -/
def restRun : Regex := .loop (.any false) 0 none true

/-- `/?`: a `/` when there is one. -/
def optSlash : Regex := .loop (.char '/' false) 0 (some 1) true

/-- The group bodies and literals of a whole-path regex: a parameter's `[^/]+` before each literal
of `ds`, then the wildcard's `.*` when `rest` holds. -/
def pathParts (ds : List (List Char)) (rest : Bool) : List (Regex × List Char) :=
  ds.map (segmentRun, ·) ++ if rest then [(restRun, [])] else []

/-- The whole-path regex: the literal `lead`, the groups of `pathParts ds rest`, then at most one
`/` before the end. -/
def pathPattern (lead : List Char) (ds : List (List Char)) (rest : Bool) : Pattern :=
  ⟨seqOf (.assert .startText ::
      (literal lead ++ groupsThen 1 (pathParts ds rest) ++ [optSlash, .assert .endText])),
    (pathParts ds rest).length⟩

theorem contains_notSlash (c : Char) : notSlash.contains false c = true ↔ c ≠ '/' := by
  simp only [notSlash, CharSet.contains, CharSet.single, CharSet.leafContains, Bool.false_and,
    Bool.or_false, Bool.false_or, Bool.not_eq_true', Bool.and_eq_false_iff, decide_eq_false_iff_not]
  constructor
  · rintro (h | h) rfl <;> exact h (Char.le_refl _)
  · intro h
    by_contra hc
    simp only [not_or, Classical.not_not] at hc
    exact h (Char.le_antisymm hc.2 hc.1)

/-! ## Reading the text of the groups -/

namespace Reader

theorem readClass_notSlash (rest : List Char) :
    readClass ('^' :: '/' :: ']' :: rest) = .ok (notSlash, rest) := by
  -- the bracket counting and the members both stop at the `]`
  have h₁ : bracketEnd (rest.length + 3) 1 ('/' :: ']' :: rest) = .ok rest := rfl
  have h₂ : classBody (rest.length + 4) ('^' :: '/' :: ']' :: rest) = .ok (notSlash, rest) := rfl
  show (do
    let stop ← bracketEnd (rest.length + 3) 1 ('/' :: ']' :: rest)
    let body ← classBody (rest.length + 4) ('^' :: '/' :: ']' :: rest)
    if body.2.length = stop.length then pure (body.1, body.2) else throw RegexError.badClass) = _
  rw [h₁, h₂]
  simp [bind, Except.bind, pure, Except.pure]

/-- `([^/]+)` reads as a capture group around `[^/]+`. -/
theorem run_segmentGroup (b : Branches) (g : Nat) (rest : List Char) :
    ({ cur := b, groups := g } : Reader).run ('(' :: '[' :: '^' :: '/' :: ']' :: '+' :: ')' :: rest) =
      ({ cur := { b with items := .group (g + 1) segmentRun :: b.items, last := .atom }
         groups := g + 1 } : Reader).run rest := by
  let f : Frame := ⟨.capture (g + 1), {}, b⟩
  have h₁ := @step_openCapture b g ('[' :: '^' :: '/' :: ']' :: '+' :: ')' :: rest)
    (fun t h => by cases h)
  have h₂ : ({ frames := [f], groups := g + 1 } : Reader).step '[' ('^' :: '/' :: ']' :: '+' :: ')' :: rest) =
      .ok ({ frames := [f], cur := { items := [.set notSlash false], last := .atom }, groups := g + 1 },
        '+' :: ')' :: rest) := by
    simp only [step, readClass_notSlash, bind, Except.bind, pure, Except.pure]
    rfl
  have h₃ : ({ frames := [f], cur := { items := [.set notSlash false], last := .atom }, groups := g + 1 } :
      Reader).step '+' (')' :: rest) =
      .ok ({ frames := [f], cur := { items := [segmentRun] }, groups := g + 1 }, ')' :: rest) := rfl
  have h₄ : ({ frames := [f], cur := { items := [segmentRun] }, groups := g + 1 } : Reader).step ')' rest =
      .ok ({ cur := { b with items := .group (g + 1) segmentRun :: b.items, last := .atom }
             groups := g + 1 }, rest) := rfl
  rw [run_of_step h₁ (Nat.le_refl _), run_of_step h₂ (by simp), run_of_step h₃ (by simp),
    run_of_step h₄ (Nat.le_refl _)]

/-- `(.*)` reads as a capture group around `.*`. -/
theorem run_restGroup (b : Branches) (g : Nat) (rest : List Char) :
    ({ cur := b, groups := g } : Reader).run ('(' :: '.' :: '*' :: ')' :: rest) =
      ({ cur := { b with items := .group (g + 1) restRun :: b.items, last := .atom }
         groups := g + 1 } : Reader).run rest := by
  let f : Frame := ⟨.capture (g + 1), {}, b⟩
  have h₁ : ({ cur := b, groups := g } : Reader).step '(' ('.' :: '*' :: ')' :: rest) =
      .ok ({ frames := [f], groups := g + 1 }, '.' :: '*' :: ')' :: rest) := rfl
  have h₂ : ({ frames := [f], groups := g + 1 } : Reader).step '.' ('*' :: ')' :: rest) =
      .ok ({ frames := [f], cur := { items := [.any false], last := .atom }, groups := g + 1 },
        '*' :: ')' :: rest) := rfl
  have h₃ : ({ frames := [f], cur := { items := [.any false], last := .atom }, groups := g + 1 } :
      Reader).step '*' (')' :: rest) =
      .ok ({ frames := [f], cur := { items := [restRun] }, groups := g + 1 }, ')' :: rest) := rfl
  have h₄ : ({ frames := [f], cur := { items := [restRun] }, groups := g + 1 } : Reader).step ')' rest =
      .ok ({ cur := { b with items := .group (g + 1) restRun :: b.items, last := .atom }
             groups := g + 1 }, rest) := rfl
  rw [run_of_step h₁ (Nat.le_refl _), run_of_step h₂ (by simp), run_of_step h₃ (by simp),
    run_of_step h₄ (Nat.le_refl _)]

/-- `/?$` ends a whole-path regex: an optional `/` and the end anchor after the pieces read. -/
theorem run_pathEnd (items : List Regex) (last : Last) (g : Nat)
    (hback : ∀ r ∈ items, r.maxBackref = 0) :
    ({ cur := { items, last }, groups := g } : Reader).run ['/', '?', '$'] =
      .ok ⟨seqOf (items.reverse ++ [optSlash, .assert .endText]), g⟩ := by
  let ended : Branches := { items := .assert .endText :: optSlash :: items, last := .fixed }
  have h₁ : ({ cur := { items, last }, groups := g } : Reader).step '/' ['?', '$'] =
      .ok ({ cur := { items := .char '/' false :: items, last := .atom }, groups := g }, ['?', '$']) := rfl
  have h₂ : ({ cur := { items := .char '/' false :: items, last := .atom }, groups := g } : Reader).step
      '?' ['$'] = .ok ({ cur := { items := optSlash :: items }, groups := g }, ['$']) := rfl
  have h₃ : ({ cur := { items := optSlash :: items }, groups := g } : Reader).step '$' [] =
      .ok ({ cur := ended, groups := g }, []) := rfl
  have hended : ended.toRegex = seqOf (items.reverse ++ [optSlash, .assert .endText]) := by
    simp [ended, Branches.toRegex, Branches.current, altOf]
  rw [run_of_step h₁ (by simp), run_of_step h₂ (by simp), run_of_step h₃ (Nat.le_refl _),
    run_nil_of_top _ _ (by
      rw [hended]
      refine maxBackref_seqOf fun r hr => ?_
      simp only [List.mem_append, List.mem_reverse, List.mem_cons, List.not_mem_nil, or_false] at hr
      rcases hr with hr | rfl | rfl
      · exact hback r hr
      · rfl
      · rfl), hended]

end Reader

/-! ## Soundness: a parameter's text holds no `/` -/

variable {text : Array Char}

/-- Every character from `p` up to `q` satisfies `P`. -/
def AllBetween (text : Array Char) (P : Char → Prop) (p q : Nat) : Prop :=
  ∀ j, p ≤ j → j < q → ∃ c, text.toList[j]? = some c ∧ P c

theorem AllBetween.trans {P : Char → Prop} {p q r : Nat} (h₁ : AllBetween text P p q)
    (h₂ : AllBetween text P q r) : AllBetween text P p r := fun j hp hr => by
  rcases Nat.lt_or_ge j q with hq | hq
  · exact h₁ j hp hq
  · exact h₂ j hq hr

theorem AllBetween.refl (P : Char → Prop) (p : Nat) : AllBetween text P p p :=
  fun _ hp hq => absurd hq (Nat.not_lt.2 hp)

/-- The text between two positions holds no `c` when no character there is `c`. -/
theorem AllBetween.not_mem_segment {c : Char} {p q : Nat} (h : AllBetween text (· ≠ c) p q) :
    c ∉ segment text (p, q) := by
  intro hc
  obtain ⟨i, hi, hget⟩ := List.getElem_of_mem hc
  have hi' : i < q - p := by simp [segment] at hi; omega
  obtain ⟨d, hd, hdc⟩ := h (p + i) (Nat.le_add_right p i) (by omega)
  have : (segment text (p, q))[i]? = text.toList[p + i]? := by
    simp [segment, hi', List.getElem?_drop]
  rw [List.getElem?_eq_getElem hi, hget, hd] at this
  exact hdc (Option.some.inj this).symm

/-- A matcher that moves forward over characters satisfying `P` only, and leaves the group spans
alone: whenever it succeeds, its continuation succeeded at a cursor after such characters. -/
def ReadsOnly (text : Array Char) (P : Char → Prop) (m : Cursor → Cont → Option Cursor) : Prop :=
  ∀ cur k res, m cur k = some res → ∃ next, cur.pos ≤ next.pos ∧ next.spans = cur.spans ∧
    AllBetween text P cur.pos next.pos ∧ k next = some res

/-- A loop reads what its body reads. The induction is on the fuel; each turn hands on to the
next turn or to the continuation. -/
theorem loopFrom_readsOnly {P : Char → Prop} {body : Cursor → Cont → Option Cursor}
    (hb : ReadsOnly text P body) (lo : Nat) (hi : Option Nat) (greedy : Bool) :
    ∀ fuel count, ReadsOnly text P (loopFrom body lo hi greedy fuel count) := by
  intro fuel
  induction fuel with
  | zero => intro _ _ _ _ h; cases h
  | succ fuel ih =>
    intro count cur k res h
    have hstay : k cur = some res → ∃ n, cur.pos ≤ n.pos ∧ n.spans = cur.spans ∧
        AllBetween text P cur.pos n.pos ∧ k n = some res :=
      fun h' => ⟨cur, Nat.le_refl _, rfl, .refl P _, h'⟩
    have hgo : ∀ next, cur.pos ≤ next.pos → next.spans = cur.spans → AllBetween text P cur.pos next.pos →
        loopFrom body lo hi greedy fuel (count + 1) next k = some res →
        ∃ n, cur.pos ≤ n.pos ∧ n.spans = cur.spans ∧ AllBetween text P cur.pos n.pos ∧ k n = some res := by
      intro next hpos hspans hread hnext
      obtain ⟨n, hn, hns, hnread, hk⟩ := ih (count + 1) next k res hnext
      exact ⟨n, by omega, hns.trans hspans, hread.trans hnread, hk⟩
    have hagain : body cur (fun next => if next.pos == cur.pos then k next
        else loopFrom body lo hi greedy fuel (count + 1) next k) = some res →
        ∃ n, cur.pos ≤ n.pos ∧ n.spans = cur.spans ∧ AllBetween text P cur.pos n.pos ∧ k n = some res := by
      intro h'
      obtain ⟨next, hpos, hspans, hread, hnext⟩ := hb cur _ res h'
      split at hnext
      · exact ⟨next, hpos, hspans, hread, hnext⟩
      · exact hgo next hpos hspans hread hnext
    simp only [loopFrom] at h
    split at h
    · obtain ⟨next, hpos, hspans, hread, hnext⟩ := hb cur _ res h
      exact hgo next hpos hspans hread hnext
    · split at h
      · exact hstay h
      · split at h
        · rcases firstOf_eq_some h with h | h
          · exact hagain h
          · exact hstay h
        · rcases firstOf_eq_some h with h | h
          · exact hstay h
          · exact hagain h

/-- A character set reads one character of the set. -/
theorem readsOnly_set (s : CharSet) (fold : Bool) :
    ReadsOnly text (fun c => s.contains fold c = true) ((Regex.set s fold).matchAt text) := by
  intro cur k res h
  simp only [Regex.matchAt] at h
  split at h
  · rename_i d hd
    split at h
    · rename_i hs
      refine ⟨{ cur with pos := cur.pos + 1 }, Nat.le_succ _, rfl, fun j hj hj' => ⟨d, ?_, hs⟩, h⟩
      have hj'' : j = cur.pos := by
        dsimp only at hj'
        omega
      rw [hj'', Array.getElem?_toList]
      exact hd
    · cases h
  · cases h

theorem readsOnly_segmentRun : ReadsOnly text (· ≠ '/') (segmentRun.matchAt text) := by
  intro cur k res h
  obtain ⟨next, hpos, hspans, hread, hk⟩ :=
    loopFrom_readsOnly (readsOnly_set notSlash false) 1 none true _ 0 cur k res h
  refine ⟨next, hpos, hspans, fun j hj hj' => ?_, hk⟩
  obtain ⟨c, hc, hs⟩ := hread j hj hj'
  exact ⟨c, hc, (contains_notSlash c).1 hs⟩

/-- When parameters' groups, each followed by its literal, match, their spans and literals lie one
after another, no span holds a `/`, and the spans are recorded. The induction is on the groups. -/
theorem matchSeq_segmentGroups_sound : ∀ (ds : List (List Char)) (i : Nat) (cur : Cursor) (k : Cont)
    (res : Cursor), matchSeq text (groupsThen i (ds.map (segmentRun, ·))) cur k = some res →
    ∃ sp e, Laid text cur.pos sp ds e ∧ (∀ s ∈ sp, AllBetween text (· ≠ '/') s.1 s.2) ∧
      k ⟨e, recordSpans cur.spans i sp⟩ = some res
  | [], _, cur, _, _, h => ⟨[], cur.pos, .nil _, fun _ hs => absurd hs List.not_mem_nil, h⟩
  | d :: ds, i, cur, k, res, h => by
    simp only [List.map_cons, groupsThen, List.cons_append, matchSeq, Regex.matchAt] at h
    obtain ⟨next, hpos, hspans, hread, h⟩ := readsOnly_segmentRun cur _ res h
    rw [matchSeq_append] at h
    have hd := prefix_of_matchSeq_literal h
    rw [matchSeq_literal hd] at h
    obtain ⟨sp, e, hlaid, hfree, hk⟩ := matchSeq_segmentGroups_sound ds (i + 1) _ k res h
    refine ⟨(cur.pos, next.pos) :: sp, e, .cons hpos hd hlaid, ?_, ?_⟩
    · intro s hs
      rcases List.mem_cons.1 hs with rfl | hs
      · exact hread
      · exact hfree s hs
    · rw [← hspans]
      exact hk

/-! ## Completeness: the values' spans -/

theorem map_snd_pairs (body : Regex) (ds : List (List Char)) :
    (ds.map (body, ·)).map Prod.snd = ds := by
  simp [Function.comp_def]

theorem stepsOver_notSlash {p : Nat} {c : Char} (hc : text.toList[p]? = some c) (hcs : c ≠ '/') :
    StepsOver ((Regex.set notSlash false).matchAt text) p := by
  intro cur k hcur
  rw [Array.getElem?_toList] at hc
  simp only [Regex.matchAt, hcur, hc, (contains_notSlash c).2 hcs, if_true]

/-- `[^/]+` can match every non-empty stretch of the text without a `/`: its first turn is
forced, and then it can stop anywhere. -/
theorem admits_segmentRun {p q : Nat} (hq : q ≤ text.size) (hpq : p < q)
    (hchars : AllBetween text (· ≠ '/') p q) : Admits text segmentRun p q := by
  intro cur k hcur hk
  have hsteps : ∀ j, p ≤ j → j < q → StepsOver ((Regex.set notSlash false).matchAt text) j := by
    intro j hpj hjq
    obtain ⟨c, hc, hcs⟩ := hchars j hpj hjq
    exact stepsOver_notSlash hc hcs
  show (loopFrom (fun c k' => (Regex.set notSlash false).matchAt text c k') 1 none true
    (1 + (text.size - cur.pos) + 1) 0 cur k).isSome
  rw [loopFrom, if_pos Nat.zero_lt_one, hsteps p (Nat.le_refl p) hpq cur _ hcur]
  exact loopFrom_reaches (fun j hj hjq => hsteps j (by omega) hjq) _ 1 _ k (Nat.le_refl 1)
    (by show p ≤ p + 1; omega) (by show p + 1 ≤ q; omega)
    (by show q - (p + 1) < 1 + (text.size - cur.pos); omega) hk

/-- Values without `/`, none of them empty, joined by literals, can each be matched by a
parameter's group. The induction is on the literals. -/
theorem admits_segmentSpans : ∀ (ds vs : List (List Char)) (p : Nat) (rest : List Char),
    vs.length = ds.length → (∀ v ∈ vs, v ≠ [] ∧ '/' ∉ v) →
    text.toList.drop p = interleave vs ds ++ rest →
    List.Forall₂ (fun part s => Admits text part.1 s.1 s.2) (ds.map (segmentRun, ·)) (spansOf p vs ds)
  | [], [], _, _, _, _, _ => .nil
  | d :: ds, v :: vs, p, rest, hlen, hvs, h => by
    simp only [interleave, List.append_assoc] at h
    have hsize := congrArg List.length h
    simp only [List.length_drop, List.length_append, Array.length_toList] at hsize
    obtain ⟨hne, hslash⟩ := hvs v List.mem_cons_self
    have hvlen : 0 < v.length := List.length_pos_iff.2 hne
    have hpart : Admits text segmentRun p (p + v.length) := by
      refine admits_segmentRun (by omega) (by omega) fun j hpj hjq => ?_
      have hj : j - p < v.length := by omega
      have hget := getElem?_of_drop_eq h hj
      rw [Nat.add_sub_cancel' hpj, List.getElem?_eq_getElem hj] at hget
      exact ⟨_, hget, fun hc => hslash (hc ▸ List.getElem_mem hj)⟩
    have hnext : text.toList.drop (p + v.length + d.length) = interleave vs ds ++ rest := by
      rw [← List.drop_drop, ← List.drop_drop, h, List.drop_left, List.drop_left]
    exact .cons hpart (admits_segmentSpans ds vs _ rest (by simpa using hlen)
      (fun w hw => hvs w (List.mem_cons_of_mem _ hw)) hnext)
  | [], _ :: _, _, _, h, _, _ => by simp at h
  | _ :: _, [], _, _, h, _, _ => by simp at h

/-! ## The end of the path -/

/-- After the groups, `/?$` holds exactly at the end of the text or before a last `/`, and goes
on at the end. -/
theorem matchSeq_pathEnd (cur : Cursor) (k : Cont) :
    matchSeq text [optSlash, .assert .endText] cur k =
      if cur.pos = text.size ∨ (text.toList[cur.pos]? = some '/' ∧ cur.pos + 1 = text.size) then
        k ⟨text.size, cur.spans⟩ else none := by
  let body : Cursor → Cont → Option Cursor := fun c k' => (Regex.char '/' false).matchAt text c k'
  let K : Cont := fun next => matchSeq text [.assert .endText] next k
  -- the end anchor holds only at the end
  have hK : ∀ next : Cursor, K next = if next.pos = text.size then k next else none := fun next => by
    simp [K, matchSeq, Regex.matchAt, Assertion.holds]
  -- the loop tries one `/` first, and stops after it
  have hfirst : ∀ fuel, loopFrom body 0 (some 1) true (fuel + 1) 0 cur K =
      firstOf (body cur fun next => if next.pos == cur.pos then K next
        else loopFrom body 0 (some 1) true fuel 1 next K) fun _ => K cur := fun _ => rfl
  have hsecond : ∀ fuel next, loopFrom body 0 (some 1) true (fuel + 1) 1 next K = K next :=
    fun _ _ => rfl
  show loopFrom body 0 (some 1) true (0 + (text.size - cur.pos) + 1) 0 cur K = _
  rw [show 0 + (text.size - cur.pos) + 1 = (text.size - cur.pos) + 1 by omega, hfirst]
  have hbody : ∀ K', body cur K' = if text.toList[cur.pos]? = some '/' then K' { cur with pos := cur.pos + 1 }
      else none := fun K' => matchAt_char '/' cur K'
  rw [hbody]
  by_cases hslash : text.toList[cur.pos]? = some '/'
  · have hlt : cur.pos < text.size := by simpa using (List.getElem?_eq_some_iff.1 hslash).1
    obtain ⟨m, hm⟩ : ∃ m, text.size - cur.pos = m + 1 := ⟨text.size - cur.pos - 1, by omega⟩
    have hne : (cur.pos + 1 == cur.pos) = false := by simp
    simp only [hslash, if_true, hne, Bool.false_eq_true, if_false, hm]
    rw [hsecond, hK, hK]
    by_cases hend : cur.pos + 1 = text.size
    · cases hk : k ⟨text.size, cur.spans⟩ <;> simp [firstOf, hend, hk, Nat.ne_of_lt hlt]
    · simp [firstOf, hend, Nat.ne_of_lt hlt]
  · simp only [hslash, if_false, firstOf, false_and, or_false]
    rw [hK]
    by_cases hend : cur.pos = text.size
    · simp only [hend, if_true]
      rw [← hend]
    · simp only [hend, if_false]

/-! ## The wildcard's group runs to the end -/

/-- The greedy `.*` over characters none of which is a line feed goes on to the end of the text
before anything else is tried. The induction is on the fuel, one turn a character. -/
theorem loopFrom_any_toEnd {k : Cont} {res : Cursor} :
    ∀ fuel count (cur : Cursor), text.size - cur.pos < fuel → cur.pos ≤ text.size →
      (∀ j, cur.pos ≤ j → j < text.size → text.toList[j]? ≠ some '\n') →
      k ⟨text.size, cur.spans⟩ = some res →
      loopFrom (fun c k' => (Regex.any false).matchAt text c k') 0 none true fuel count cur k = some res := by
  intro fuel
  induction fuel with
  | zero => intro _ _ h; omega
  | succ fuel ih =>
    intro count cur hfuel hpos hnl hk
    have hnone : (none == some count) = false := rfl
    simp only [loopFrom, Nat.not_lt_zero, if_false, hnone, Bool.false_eq_true, if_true]
    rcases Nat.lt_or_ge cur.pos text.size with hlt | hge
    · -- one more character is read, and the loop goes on after it
      obtain ⟨c, hc⟩ : ∃ c, text.toList[cur.pos]? = some c :=
        Option.isSome_iff_exists.1 (by simp [hlt])
      have hc' : c ≠ '\n' := fun h => hnl cur.pos (Nat.le_refl _) hlt (h ▸ hc)
      rw [stepsOver_any hc hc' cur _ rfl]
      have hne : (cur.pos + 1 == cur.pos) = false := by simp
      simp only [hne, Bool.false_eq_true, if_false]
      rw [ih (count + 1) { cur with pos := cur.pos + 1 } (by show text.size - (cur.pos + 1) < fuel; omega)
        (by show cur.pos + 1 ≤ text.size; omega)
        (fun j hj hj' => hnl j (by simp only at hj; omega) hj') hk]
      rfl
    · -- at the end no character is left, and the continuation is tried
      have hend : cur.pos = text.size := by omega
      have hnil : text[cur.pos]? = none := by simp [hend]
      simp only [Regex.matchAt, hnil, firstOf]
      rw [← hk, ← hend]

/-- The wildcard's group, over a rest of the text without a line feed, captures all of it when
the continuation succeeds at the end. -/
theorem matchAt_restGroup {i : Nat} {cur : Cursor} {k : Cont} {res : Cursor} (hpos : cur.pos ≤ text.size)
    (hnl : ∀ j, cur.pos ≤ j → j < text.size → text.toList[j]? ≠ some '\n')
    (hk : k ⟨text.size, cur.spans.setIfInBounds i (some (cur.pos, text.size))⟩ = some res) :
    (Regex.group i restRun).matchAt text cur k = some res := by
  simp only [Regex.matchAt, restRun]
  exact loopFrom_any_toEnd _ 0 cur (by omega) hpos hnl hk

/-! ## Only one cut -/

/-- A text holding `/` is cut at its first `/`. -/
theorem exists_first_slash : ∀ {d : List Char}, '/' ∈ d → ∃ a b, d = a ++ '/' :: b ∧ '/' ∉ a
  | c :: d, h => by
    by_cases hc : c = '/'
    · exact ⟨[], d, by rw [hc]; rfl, List.not_mem_nil⟩
    · obtain ⟨a, b, rfl, ha⟩ := List.mem_cons.1 h |>.resolve_left (Ne.symm hc) |> exists_first_slash
      exact ⟨c :: a, b, rfl, by simp [Ne.symm hc, ha]⟩

/-- A value without `/` followed by a literal holding `/` ends where the literal's first `/` is:
two such cuts of one text are the same. -/
theorem slash_cut_inj {g v d X Y : List Char} (hd : '/' ∈ d) (hg : '/' ∉ g) (hv : '/' ∉ v)
    (h : g ++ d ++ X = v ++ d ++ Y) : g = v ∧ X = Y := by
  obtain ⟨a, b, rfl, ha⟩ := exists_first_slash hd
  have h' : (g ++ a) ++ '/' :: (b ++ X) = (v ++ a) ++ '/' :: (b ++ Y) := by simpa using h
  have hga : '/' ∉ g ++ a := by simp [hg, ha]
  have hva : '/' ∉ v ++ a := by simp [hv, ha]
  have hlen : (g ++ a).length = (v ++ a).length :=
    Nat.le_antisymm (length_le_of_append_eq h'.symm hga) (length_le_of_append_eq h' hva)
  obtain ⟨hga', hrest⟩ := List.append_inj h' hlen
  refine ⟨List.append_cancel_right hga', ?_⟩
  simpa using hrest

/-- Values without `/` joined by literals that each hold a `/` are cut in one way only, whatever
follows them. The induction is on the literals. -/
theorem interleave_slash_inj : ∀ {ds gs vs : List (List Char)} {X Y : List Char},
    gs.length = ds.length → vs.length = ds.length → (∀ d ∈ ds, '/' ∈ d) → (∀ g ∈ gs, '/' ∉ g) →
    (∀ v ∈ vs, '/' ∉ v) → interleave gs ds ++ X = interleave vs ds ++ Y → gs = vs ∧ X = Y
  | [], [], [], _, _, _, _, _, _, _, h => ⟨rfl, h⟩
  | d :: ds, g :: gs, v :: vs, _, _, hg, hv, hsep, hgs, hvs, h => by
    simp only [interleave, List.append_assoc] at h
    obtain ⟨rfl, htail⟩ := slash_cut_inj (X := interleave gs ds ++ _) (Y := interleave vs ds ++ _)
      (hsep d List.mem_cons_self) (hgs g List.mem_cons_self) (hvs v List.mem_cons_self)
      (by simpa using h)
    obtain ⟨rfl, hXY⟩ := interleave_slash_inj (by simpa using hg) (by simpa using hv)
      (fun x hx => hsep x (List.mem_cons_of_mem _ hx)) (fun x hx => hgs x (List.mem_cons_of_mem _ hx))
      (fun x hx => hvs x (List.mem_cons_of_mem _ hx)) htail
    exact ⟨rfl, hXY⟩
  | [], _ :: _, _, _, _, hg, _, _, _, _, _ => by simp at hg
  | [], [], _ :: _, _, _, _, hv, _, _, _, _ => by simp at hv
  | _ :: _, [], _, _, _, hg, _, _, _, _, _ => by simp at hg
  | _ :: _, _ :: _, [], _, _, _, hv, _, _, _, _ => by simp at hv

/-- Values without `/` joined by literals, every literal but the last holding a `/`, followed by
at most one `/` to the end, are cut in one way only: the last value ends where the last literal's
`/` is, or, when the last literal has none, where the text ends save for the final `/`. -/
theorem interleave_end_inj {ds gs vs : List (List Char)} {tg tv : List Char}
    (hg : gs.length = ds.length) (hv : vs.length = ds.length) (hsep : ∀ d ∈ ds.dropLast, '/' ∈ d)
    (hgs : ∀ g ∈ gs, '/' ∉ g) (hvs : ∀ v ∈ vs, '/' ∉ v) (htg : tg = [] ∨ tg = ['/'])
    (htv : tv = [] ∨ tv = ['/']) (h : interleave gs ds ++ tg = interleave vs ds ++ tv) : gs = vs := by
  induction ds generalizing gs vs with
  | nil => rw [List.length_eq_zero_iff.1 hg, List.length_eq_zero_iff.1 hv]
  | cons d ds ih =>
    obtain ⟨g, gs, rfl⟩ := List.exists_cons_of_length_eq_add_one hg
    obtain ⟨v, vs, rfl⟩ := List.exists_cons_of_length_eq_add_one hv
    simp only [interleave, List.append_assoc] at h
    cases ds with
    | nil =>
      obtain rfl : gs = [] := List.length_eq_zero_iff.1 (by simpa using hg)
      obtain rfl : vs = [] := List.length_eq_zero_iff.1 (by simpa using hv)
      simp only [interleave, List.nil_append] at h
      by_cases hd : '/' ∈ d
      · rw [(slash_cut_inj hd (hgs g List.mem_cons_self) (hvs v List.mem_cons_self)
          (by simpa using h)).1]
      · -- no `/` in the last literal: both cuts end before the same final `/`, if any
        have hfree : ∀ x, '/' ∉ x → ∀ t, (t = [] ∨ t = ['/']) → ('/' ∈ x ++ (d ++ t) ↔ t = ['/']) := by
          intro x hx t ht
          rcases ht with rfl | rfl <;> simp [hx, hd]
        have hgv := hfree g (hgs g List.mem_cons_self) _ htg
        have hvv := hfree v (hvs v List.mem_cons_self) _ htv
        rw [h] at hgv
        have htt : tg = tv := by
          rcases htg with rfl | rfl <;> rcases htv with rfl | rfl <;> simp_all
        subst htt
        rw [List.append_cancel_right h]
    | cons d' ds =>
      -- the literal after the first value holds a `/`, where the first value ends
      obtain ⟨rfl, htail⟩ := slash_cut_inj (X := interleave gs (d' :: ds) ++ _)
        (Y := interleave vs (d' :: ds) ++ _) (hsep d (by simp)) (hgs g List.mem_cons_self)
        (hvs v List.mem_cons_self) (by simpa using h)
      have hrest := ih (by simpa using hg) (by simpa using hv) (fun x hx => hsep x (by
          rw [List.dropLast_cons_of_ne_nil (List.cons_ne_nil _ _)]
          exact List.mem_cons_of_mem _ hx))
        (fun x hx => hgs x (List.mem_cons_of_mem _ hx)) (fun x hx => hvs x (List.mem_cons_of_mem _ hx))
        htail
      rw [hrest]

/-! ## The captured values -/

theorem groupsThen_append : ∀ (i : Nat) (a b : List (Regex × List Char)),
    groupsThen i (a ++ b) = groupsThen i a ++ groupsThen (i + a.length) b
  | i, [], b => by simp [groupsThen]
  | i, (body, d) :: a, b => by
    simp only [List.cons_append, groupsThen, groupsThen_append (i + 1) a b, List.append_assoc,
      List.length_cons]
    rw [show i + 1 + a.length = i + (a.length + 1) by omega]

theorem recordSpans_append_singleton : ∀ (sp : List (Nat × Nat)) (spans : Array (Option (Nat × Nat)))
    (i : Nat) (s : Nat × Nat),
    recordSpans spans i (sp ++ [s]) = (recordSpans spans i sp).setIfInBounds (i + sp.length) (some s)
  | [], _, _, _ => rfl
  | _ :: sp, spans, i, s => by
    rw [List.cons_append, recordSpans, recordSpans, recordSpans_append_singleton sp, List.length_cons,
      show i + 1 + sp.length = i + (sp.length + 1) by omega]

/-- The texts a search captures, when it recorded a span for each group. -/
theorem captures_of_search {P : Pattern} {s : String} {sp : List (Nat × Nat)} {e : Nat}
    (hlen : sp.length = P.groups)
    (h : P.search s.toList.toArray =
      some ((recordSpans (.replicate (P.groups + 1) none) 1 sp).setIfInBounds 0 (some (0, e)))) :
    P.captures s = some (sp.map fun ab => some (String.ofList (segment s.toList.toArray ab))) := by
  simp only [Pattern.captures, h, Option.map_some, Option.some.injEq]
  apply List.ext_getElem
  · simp [hlen]
  · intro i hi _
    have hi' : i < sp.length := by simpa [hlen] using hi
    have hget : ((recordSpans (.replicate (P.groups + 1) none) 1 sp).setIfInBounds 0
        (some (0, e)))[i + 1]? = some (some sp[i]) := by
      rw [Array.getElem?_setIfInBounds_ne (by omega), Nat.add_comm i 1]
      exact getElem?_recordSpans sp _ 1 i hi' (by simp [hlen]; omega)
    simp only [List.getElem_map, List.getElem_range, hget, Array.toList_extract,
      List.extract_eq_take_drop, segment]

/-- Where `/?$` holds the text ends, save for one `/`. -/
theorem drop_of_endsPath {e : Nat} (h : e = text.size ∨ (text.toList[e]? = some '/' ∧ e + 1 = text.size)) :
    text.toList.drop e = [] ∨ text.toList.drop e = ['/'] := by
  rcases h with rfl | ⟨hc, he⟩
  · exact .inl (List.drop_eq_nil_of_le (by simp))
  · have hlt : e < text.toList.length := (List.getElem?_eq_some_iff.1 hc).1
    rw [List.drop_eq_getElem_cons hlt, List.drop_eq_nil_of_le (by simp; omega)]
    exact .inr (by rw [(List.getElem?_eq_some_iff.1 hc).2])

/-- Where the text ends, save for one `/`, `/?$` holds. -/
theorem endsPath_of_drop {e : Nat} (he : e ≤ text.size)
    (h : text.toList.drop e = [] ∨ text.toList.drop e = ['/']) :
    e = text.size ∨ (text.toList[e]? = some '/' ∧ e + 1 = text.size) := by
  rcases h with h | h
  · have hlen := congrArg List.length h
    rw [List.length_drop, Array.length_toList] at hlen
    exact .inl (by simp at hlen; omega)
  · have hlen := congrArg List.length h
    rw [List.length_drop, Array.length_toList] at hlen
    refine .inr ⟨?_, by simp at hlen; omega⟩
    have hfirst : (text.toList.drop e)[0]? = some '/' := by rw [h]; rfl
    rwa [List.getElem?_drop, Nat.add_zero] at hfirst

/-- A whole-path regex without the wildcard captures the values the path was made of, whether or
not one more `/` ends the path. -/
theorem pathPattern_captures_params {lead : List Char} {ds vs : List (List Char)}
    (hsep : ∀ d ∈ ds.dropLast, '/' ∈ d) (hlen : vs.length = ds.length)
    (hvs : ∀ v ∈ vs, v ≠ [] ∧ '/' ∉ v) {tail : List Char} (htail : tail = [] ∨ tail = ['/']) :
    (pathPattern lead ds false).captures (String.ofList (lead ++ interleave vs ds ++ tail)) =
      some (vs.map fun v => some (String.ofList v)) := by
  let text := (String.ofList (lead ++ interleave vs ds ++ tail)).toList.toArray
  have htext : text.toList = lead ++ interleave vs ds ++ tail := by simp [text]
  have hgroups : (pathPattern lead ds false).groups = ds.length := by simp [pathPattern, pathParts]
  let blank : Array (Option (Nat × Nat)) := .replicate (ds.length + 1) none
  let K : Cont := fun next => matchSeq text [optSlash, .assert .endText] next some
  -- the search reads the lead at the start, then the groups
  have hsearch : (pathPattern lead ds false).search text =
      (matchSeq text (groupsThen 1 (ds.map (segmentRun, ·))) ⟨lead.length, blank⟩ K).map
        fun cur => cur.spans.setIfInBounds 0 (some (0, cur.pos)) := by
    have hlead : lead <+: text.toList.drop
        (⟨0, .replicate ((pathParts ds false).length + 1) none⟩ : Cursor).pos := by
      rw [htext, List.drop_zero, List.append_assoc]
      exact List.prefix_append _ _
    rw [pathPattern, search_anchored, matchAt_seqOf]
    simp only [matchSeq, Regex.matchAt, Assertion.holds, beq_self_eq_true, if_true]
    rw [matchSeq_append, matchSeq_append, matchSeq_literal hlead]
    simp [pathParts, blank, K]
  have hvdrop : text.toList.drop lead.length = interleave vs ds ++ tail := by
    rw [htext, List.append_assoc, List.drop_left]
  -- the values' spans give a match
  have hsome : (matchSeq text (groupsThen 1 (ds.map (segmentRun, ·))) ⟨lead.length, blank⟩ K).isSome := by
    have hlaid : Laid text lead.length (spansOf lead.length vs ds) ((ds.map (segmentRun, ·)).map Prod.snd)
        (lead.length + (interleave vs ds).length) := by
      rw [map_snd_pairs]
      exact laid_spansOf vs ds lead.length tail hlen hvdrop
    refine matchSeq_groupsThen_complete (admits_segmentSpans ds vs _ tail hlen hvs hvdrop) 1 _ K _ hlaid ?_
    have hdrop : text.toList.drop (lead.length + (interleave vs ds).length) = tail := by
      rw [htext, List.append_assoc, ← List.drop_drop, List.drop_left, List.drop_left]
    have hle : lead.length + (interleave vs ds).length ≤ text.size := by
      rw [← Array.length_toList, htext]
      simp
    simp only [K, matchSeq_pathEnd, if_pos (endsPath_of_drop hle (hdrop ▸ htail)), Option.isSome_some]
  obtain ⟨res, hres⟩ := Option.isSome_iff_exists.1 hsome
  -- every match cuts the path at the values
  obtain ⟨sp, e, hlaid, hfree, hend⟩ := matchSeq_segmentGroups_sound ds 1 _ K res hres
  simp only [K, matchSeq_pathEnd] at hend
  split at hend
  · rename_i hcond
    obtain rfl := Option.some.inj hend
    have hcut := hlaid.drop_eq
    have hgs : sp.map (segment text) = vs := by
      refine interleave_end_inj (by simp [hlaid.length_eq]) hlen hsep ?_ (fun v hv => (hvs v hv).2)
        (drop_of_endsPath hcond) htail (hcut.symm.trans hvdrop)
      intro g hg
      obtain ⟨s, hs, rfl⟩ := List.mem_map.1 hg
      exact (hfree s hs).not_mem_segment
    have hsp : sp.length = (pathPattern lead ds false).groups := by
      rw [hgroups, hlaid.length_eq]
    rw [captures_of_search hsp (by rw [hsearch, hres, hgroups]; rfl)]
    show some (sp.map fun ab => some (String.ofList (segment text ab))) = _
    rw [← hgs, List.map_map]
    rfl
  · cases hend

/-- A whole-path regex ending in the wildcard captures the values before it and, greedily, the
whole rest of the path. -/
theorem pathPattern_captures_rest {lead : List Char} {ds vs : List (List Char)}
    (hsep : ∀ d ∈ ds, '/' ∈ d) (hlen : vs.length = ds.length) (hvs : ∀ v ∈ vs, v ≠ [] ∧ '/' ∉ v)
    {w : List Char} (hw : '\n' ∉ w) :
    (pathPattern lead ds true).captures (String.ofList (lead ++ interleave vs ds ++ w)) =
      some ((vs ++ [w]).map fun v => some (String.ofList v)) := by
  let text := (String.ofList (lead ++ interleave vs ds ++ w)).toList.toArray
  have htext : text.toList = lead ++ interleave vs ds ++ w := by simp [text]
  have hgroups : (pathPattern lead ds true).groups = ds.length + 1 := by simp [pathPattern, pathParts]
  let blank : Array (Option (Nat × Nat)) := .replicate (ds.length + 1 + 1) none
  let K : Cont := fun next =>
    matchSeq text [.group (1 + ds.length) restRun, optSlash, .assert .endText] next some
  -- the search reads the lead at the start, then the parameters' groups
  have hsearch : (pathPattern lead ds true).search text =
      (matchSeq text (groupsThen 1 (ds.map (segmentRun, ·))) ⟨lead.length, blank⟩ K).map
        fun cur => cur.spans.setIfInBounds 0 (some (0, cur.pos)) := by
    have hlead : lead <+: text.toList.drop
        (⟨0, .replicate ((pathParts ds true).length + 1) none⟩ : Cursor).pos := by
      rw [htext, List.drop_zero, List.append_assoc]
      exact List.prefix_append _ _
    rw [pathPattern, search_anchored, matchAt_seqOf]
    simp only [matchSeq, Regex.matchAt, Assertion.holds, beq_self_eq_true, if_true]
    rw [matchSeq_append, matchSeq_append, matchSeq_literal hlead, pathParts, if_pos rfl,
      groupsThen_append, matchSeq_append]
    simp [groupsThen, blank, K, matchSeq]
  have hvdrop : text.toList.drop lead.length = interleave vs ds ++ w := by
    rw [htext, List.append_assoc, List.drop_left]
  -- from where the wildcard starts, the rest of the text has no line feed
  have hnl : ∀ e, text.toList.drop e = w → ∀ j, e ≤ j → j < text.size → text.toList[j]? ≠ some '\n' := by
    intro e he j hej hj hc
    have : (text.toList.drop e)[j - e]? = some '\n' := by
      rw [List.getElem?_drop, Nat.add_sub_cancel' hej, hc]
    rw [he] at this
    exact hw (List.mem_of_getElem? this)
  -- the wildcard takes the rest, and the path ends there
  have hrest : ∀ (e : Nat) (spans : Array (Option (Nat × Nat))), e ≤ text.size → text.toList.drop e = w →
      K ⟨e, spans⟩ = some ⟨text.size, spans.setIfInBounds (1 + ds.length) (some (e, text.size))⟩ := by
    intro e spans he hdrop
    show (Regex.group (1 + ds.length) restRun).matchAt text ⟨e, spans⟩
      (fun next => matchSeq text [optSlash, .assert .endText] next some) = _
    refine matchAt_restGroup he (hnl e hdrop) ?_
    rw [matchSeq_pathEnd, if_pos (.inl rfl)]
  have he₀ : lead.length + (interleave vs ds).length ≤ text.size := by
    rw [← Array.length_toList, htext]
    simp
  have hdrop₀ : text.toList.drop (lead.length + (interleave vs ds).length) = w := by
    rw [htext, List.append_assoc, ← List.drop_drop, List.drop_left, List.drop_left]
  -- the values' spans give a match
  have hsome : (matchSeq text (groupsThen 1 (ds.map (segmentRun, ·))) ⟨lead.length, blank⟩ K).isSome := by
    have hlaid : Laid text lead.length (spansOf lead.length vs ds) ((ds.map (segmentRun, ·)).map Prod.snd)
        (lead.length + (interleave vs ds).length) := by
      rw [map_snd_pairs]
      exact laid_spansOf vs ds lead.length w hlen hvdrop
    refine matchSeq_groupsThen_complete (admits_segmentSpans ds vs _ w hlen hvs hvdrop) 1 _ K _ hlaid ?_
    rw [hrest _ _ he₀ hdrop₀]
    rfl
  obtain ⟨res, hres⟩ := Option.isSome_iff_exists.1 hsome
  -- every match cuts the path at the values before the wildcard
  obtain ⟨sp, e, hlaid, hfree, hK⟩ := matchSeq_segmentGroups_sound ds 1 _ K res hres
  obtain ⟨hgs, hdrop⟩ : sp.map (segment text) = vs ∧ text.toList.drop e = w := by
    refine interleave_slash_inj (by simp [hlaid.length_eq]) hlen hsep ?_ (fun v hv => (hvs v hv).2)
      (hlaid.drop_eq.symm.trans hvdrop)
    intro g hg
    obtain ⟨s, hs, rfl⟩ := List.mem_map.1 hg
    exact (hfree s hs).not_mem_segment
  -- the wildcard starts inside the text, since the path ends after it
  have he : e ≤ text.size := by
    change (Regex.group (1 + ds.length) restRun).matchAt text ⟨e, recordSpans blank 1 sp⟩
      (fun next => matchSeq text [optSlash, .assert .endText] next some) = some res at hK
    obtain ⟨q, hq, hq'⟩ := matchAt_group (by rfl) hK
    rw [matchSeq_pathEnd] at hq'
    split at hq'
    · rename_i hcond
      dsimp only at hcond hq
      omega
    · cases hq'
  rw [hrest e _ he hdrop] at hK
  obtain rfl := Option.some.inj hK
  have hsp : (sp ++ [(e, text.size)]).length = (pathPattern lead ds true).groups := by
    rw [hgroups, List.length_append, hlaid.length_eq]
    rfl
  have hspans : (recordSpans blank 1 sp).setIfInBounds (1 + ds.length) (some (e, text.size)) =
      recordSpans (.replicate ((pathPattern lead ds true).groups + 1) none) 1 (sp ++ [(e, text.size)]) := by
    rw [recordSpans_append_singleton, hgroups, hlaid.length_eq]
  have hw' : segment text (e, text.size) = w := by
    simp only [segment, hdrop]
    refine List.take_of_length_le (Nat.le_of_eq ?_)
    rw [← hdrop, List.length_drop, Array.length_toList]
  rw [captures_of_search hsp (by rw [hsearch, hres, hspans]; rfl)]
  show some ((sp ++ [(e, text.size)]).map fun ab => some (String.ofList (segment text ab))) = _
  rw [List.map_append, List.map_singleton, hw', ← hgs, List.map_append, List.map_map, List.map_singleton]
  rfl

end Routing.Regex
