import Routing.Regex.Match
import Routing.Proofs.Regex.Quoted
/-!
# What the backtracking matcher hands on

`Regex.matchAt` hands every way a regex matches to a continuation and answers the first success.
Proofs about a particular regex need two things of it. Soundness: when the match succeeds, the
continuation succeeded at some cursor the regex can reach; for a regex without capture groups
that cursor is further on in the text and has the same group spans, whatever alternatives, loops
and lookarounds the regex has (`matchAt_keeps`). Completeness: when the regex can reach a cursor
at which the continuation succeeds, the match succeeds (`Admits`), since the matcher tries every
way before it gives up.

A literal text matches exactly where the text has it (`matchSeq_literal`); a loop whose body reads
one character can stop at each place up to where its body first fails (`loopFrom_reaches`).
-/

namespace Routing.Regex

variable {text : Array Char}

theorem firstOf_eq_some {a : Option Cursor} {b : Unit → Option Cursor} {res : Cursor}
    (h : firstOf a b = some res) : a = some res ∨ b () = some res := by
  cases a with
  | none => exact .inr h
  | some r => exact .inl h

theorem firstOf_isSome {a : Option Cursor} {b : Unit → Option Cursor} :
    (firstOf a b).isSome ↔ a.isSome ∨ (b ()).isSome := by
  cases a <;> simp [firstOf]

/-! ## Sequences -/

/-- Matches a list of regexes one after another, as the `seqOf` of the list does. -/
def matchSeq (text : Array Char) : List Regex → Cursor → Cont → Option Cursor
  | [], cur, k => k cur
  | r :: rs, cur, k => r.matchAt text cur fun next => matchSeq text rs next k

theorem matchAt_seqOf (l : List Regex) (cur : Cursor) (k : Cont) :
    (seqOf l).matchAt text cur k = matchSeq text l cur k := by
  induction l generalizing cur k with
  | nil => rfl
  | cons r rs ih =>
    cases rs with
    | nil => rfl
    | cons r' rs' =>
      simp only [seqOf, Regex.matchAt, matchSeq]
      congr
      funext next
      exact ih next k

theorem matchSeq_append (l₁ l₂ : List Regex) (cur : Cursor) (k : Cont) :
    matchSeq text (l₁ ++ l₂) cur k = matchSeq text l₁ cur fun next => matchSeq text l₂ next k := by
  induction l₁ generalizing cur with
  | nil => rfl
  | cons r rs ih =>
    simp only [List.cons_append, matchSeq]
    congr
    funext next
    exact ih next

/-! ## Literal text -/

theorem matchAt_char (c : Char) (cur : Cursor) (k : Cont) :
    (Regex.char c false).matchAt text cur k =
      if text.toList[cur.pos]? = some c then k { cur with pos := cur.pos + 1 } else none := by
  simp only [Regex.matchAt, Array.getElem?_toList]
  cases text[cur.pos]? with
  | none => simp
  | some d =>
    by_cases h : d = c
    · subst h
      simp [sameChar]
    · have h' : (c == d) = false := beq_eq_false_iff_ne.2 (Ne.symm h)
      simp [sameChar, h', h]

/-- A literal text matches where the text has it, and goes on right after it. -/
theorem matchSeq_literal {d : List Char} {cur : Cursor} (hd : d <+: text.toList.drop cur.pos)
    (k : Cont) : matchSeq text (literal d) cur k = k { cur with pos := cur.pos + d.length } := by
  induction d generalizing cur with
  | nil => rfl
  | cons c d ih =>
    have hlt : cur.pos < text.toList.length := by
      refine Nat.lt_of_not_le fun hge => ?_
      rw [List.drop_eq_nil_of_le hge] at hd
      exact List.cons_ne_nil _ _ (List.prefix_nil.1 hd)
    rw [List.drop_eq_getElem_cons hlt, List.cons_prefix_cons] at hd
    obtain ⟨hc, hd⟩ := hd
    have hc' : text.toList[cur.pos]? = some c := by rw [List.getElem?_eq_getElem hlt, hc]
    simp only [literal_cons, matchSeq, matchAt_char, hc', if_true]
    rw [@ih { cur with pos := cur.pos + 1 } hd]
    simp only [List.length_cons]
    congr 2
    omega

/-- A literal text matches only where the text has it. -/
theorem prefix_of_matchSeq_literal {d : List Char} {cur : Cursor} {k : Cont} {res : Cursor}
    (h : matchSeq text (literal d) cur k = some res) : d <+: text.toList.drop cur.pos := by
  induction d generalizing cur with
  | nil => exact List.nil_prefix
  | cons c d ih =>
    simp only [literal_cons, matchSeq, matchAt_char] at h
    split at h
    · rename_i hc
      have hlt : cur.pos < text.toList.length := (List.getElem?_eq_some_iff.1 hc).1
      rw [List.drop_eq_getElem_cons hlt, List.cons_prefix_cons]
      exact ⟨(List.getElem?_eq_some_iff.1 hc).2.symm, ih h⟩
    · cases h

/-! ## Soundness: where a regex without groups hands on -/

/-- Whether a regex has no capture group. -/
def groupFree : Regex → Bool
  | .group _ _ => false
  | .concat a b | .alt a b => a.groupFree && b.groupFree
  | .loop body _ _ _ | .atomic body | .lookahead _ body | .lookbehind _ _ body => body.groupFree
  | _ => true

/-- A matcher that moves forward and leaves the group spans alone: whenever it succeeds, its
continuation succeeded at a cursor no earlier in the text, with the spans it started with. -/
def Keeps (m : Cursor → Cont → Option Cursor) : Prop :=
  ∀ cur k res, m cur k = some res → ∃ next, cur.pos ≤ next.pos ∧ next.spans = cur.spans ∧ k next = some res

/-- A loop keeps what its body keeps. The induction is on the fuel; each turn hands on to the
next turn or to the continuation. -/
theorem loopFrom_keeps {body : Cursor → Cont → Option Cursor} (hb : Keeps body) (lo : Nat)
    (hi : Option Nat) (greedy : Bool) : ∀ fuel count, Keeps (loopFrom body lo hi greedy fuel count) := by
  intro fuel
  induction fuel with
  | zero => intro _ _ _ _ h; cases h
  | succ fuel ih =>
    intro count cur k res h
    -- one turn of the body, then the loop or the continuation
    have hturn : ∀ {k' : Cont}, (∀ next, k' next = some res → cur.pos ≤ next.pos →
        next.spans = cur.spans → ∃ n, cur.pos ≤ n.pos ∧ n.spans = cur.spans ∧ k n = some res) →
        body cur k' = some res → ∃ n, cur.pos ≤ n.pos ∧ n.spans = cur.spans ∧ k n = some res := by
      intro k' hk' h'
      obtain ⟨next, hpos, hspans, hnext⟩ := hb cur k' res h'
      exact hk' next hnext hpos hspans
    have hgo : ∀ next, loopFrom body lo hi greedy fuel (count + 1) next k = some res →
        cur.pos ≤ next.pos → next.spans = cur.spans →
        ∃ n, cur.pos ≤ n.pos ∧ n.spans = cur.spans ∧ k n = some res := by
      intro next hnext hpos hspans
      obtain ⟨n, hn, hns, hk⟩ := ih (count + 1) next k res hnext
      exact ⟨n, by omega, hns.trans hspans, hk⟩
    have hagain : body cur (fun next => if next.pos == cur.pos then k next
        else loopFrom body lo hi greedy fuel (count + 1) next k) = some res →
        ∃ n, cur.pos ≤ n.pos ∧ n.spans = cur.spans ∧ k n = some res := by
      refine hturn fun next hnext hpos hspans => ?_
      split at hnext
      · exact ⟨next, hpos, hspans, hnext⟩
      · exact hgo next hnext hpos hspans
    simp only [loopFrom] at h
    split at h
    · exact hturn (fun next hnext hpos hspans => hgo next hnext hpos hspans) h
    · split at h
      · exact ⟨cur, Nat.le_refl _, rfl, h⟩
      · split at h
        · rcases firstOf_eq_some h with h | h
          · exact hagain h
          · exact ⟨cur, Nat.le_refl _, rfl, h⟩
        · rcases firstOf_eq_some h with h | h
          · exact ⟨cur, Nat.le_refl _, rfl, h⟩
          · exact hagain h

/-- A regex without capture groups moves forward and leaves the group spans alone, however it
matches. The induction is on the regex. -/
theorem matchAt_keeps : ∀ (r : Regex), r.groupFree → Keeps (r.matchAt text)
  | .empty, _ => fun cur _ _ h => ⟨cur, Nat.le_refl _, rfl, h⟩
  | .char c fold, _ => by
    intro cur k res h
    simp only [Regex.matchAt] at h
    split at h
    · split at h
      · exact ⟨{ cur with pos := cur.pos + 1 }, Nat.le_succ _, rfl, h⟩
      · cases h
    · cases h
  | .any newline, _ => by
    intro cur k res h
    simp only [Regex.matchAt] at h
    split at h
    · split at h
      · exact ⟨{ cur with pos := cur.pos + 1 }, Nat.le_succ _, rfl, h⟩
      · cases h
    · cases h
  | .set s fold, _ => by
    intro cur k res h
    simp only [Regex.matchAt] at h
    split at h
    · split at h
      · exact ⟨{ cur with pos := cur.pos + 1 }, Nat.le_succ _, rfl, h⟩
      · cases h
    · cases h
  | .assert a, _ => by
    intro cur k res h
    simp only [Regex.matchAt] at h
    split at h
    · exact ⟨cur, Nat.le_refl _, rfl, h⟩
    · cases h
  | .group _ _, h => by simp [groupFree] at h
  | .concat a b, h => by
    simp only [groupFree, Bool.and_eq_true] at h
    intro cur k res hm
    obtain ⟨n₁, hp₁, hs₁, h₁⟩ := matchAt_keeps a h.1 cur _ res hm
    obtain ⟨n₂, hp₂, hs₂, h₂⟩ := matchAt_keeps b h.2 n₁ k res h₁
    exact ⟨n₂, Nat.le_trans hp₁ hp₂, hs₂.trans hs₁, h₂⟩
  | .alt a b, h => by
    simp only [groupFree, Bool.and_eq_true] at h
    intro cur k res hm
    rcases firstOf_eq_some hm with hm | hm
    · exact matchAt_keeps a h.1 cur k res hm
    · exact matchAt_keeps b h.2 cur k res hm
  | .loop body lo hi greedy, h => by
    intro cur k res hm
    exact loopFrom_keeps (fun c k' r' h' => matchAt_keeps body h c k' r' h') lo hi greedy _ 0 cur k res hm
  | .atomic body, h => by
    intro cur k res hm
    simp only [Regex.matchAt] at hm
    split at hm
    · rename_i next hnext
      obtain ⟨n, hp, hs, hn⟩ := matchAt_keeps body h cur some next hnext
      obtain rfl := Option.some.inj hn
      exact ⟨n, hp, hs, hm⟩
    · cases hm
  | .lookahead negated body, h => by
    intro cur k res hm
    simp only [Regex.matchAt] at hm
    split at hm
    · rename_i next hnext
      obtain ⟨n, -, hs, hn⟩ := matchAt_keeps body h cur some next hnext
      obtain rfl := Option.some.inj hn
      split at hm
      · cases hm
      · exact ⟨{ cur with spans := n.spans }, Nat.le_refl _, hs, hm⟩
    · split at hm
      · exact ⟨cur, Nat.le_refl _, rfl, hm⟩
      · cases hm
  | .lookbehind negated width body, h => by
    intro cur k res hm
    simp only [Regex.matchAt] at hm
    split at hm
    · rename_i next hnext
      split at hnext
      · obtain ⟨n, -, hs, hn⟩ := matchAt_keeps body h _ _ next hnext
        split at hn
        · obtain rfl := Option.some.inj hn
          split at hm
          · cases hm
          · exact ⟨{ cur with spans := n.spans }, Nat.le_refl _, hs, hm⟩
        · cases hn
      · cases hnext
    · split at hm
      · exact ⟨cur, Nat.le_refl _, rfl, hm⟩
      · cases hm
  | .backref i fold, _ => by
    intro cur k res hm
    simp only [Regex.matchAt] at hm
    split at hm
    · split at hm
      · exact ⟨{ cur with pos := cur.pos + _ }, Nat.le_add_right _ _, rfl, hm⟩
      · cases hm
    · cases hm

/-- A group whose body has no groups of its own records where it started and ended. -/
theorem matchAt_group {i : Nat} {body : Regex} (hb : body.groupFree) {cur : Cursor} {k : Cont}
    {res : Cursor} (h : (Regex.group i body).matchAt text cur k = some res) :
    ∃ q, cur.pos ≤ q ∧ k ⟨q, cur.spans.setIfInBounds i (some (cur.pos, q))⟩ = some res := by
  obtain ⟨next, hpos, hspans, hk⟩ := matchAt_keeps body hb cur _ res h
  refine ⟨next.pos, hpos, ?_⟩
  rw [← hspans]
  exact hk

/-! ## Completeness: the matcher finds a way through -/

/-- The regex can match from `p` to `q`: whenever the continuation succeeds at `q` with the spans
the match started with, the match succeeds. -/
def Admits (text : Array Char) (r : Regex) (p q : Nat) : Prop :=
  ∀ cur k, cur.pos = p → (k { cur with pos := q }).isSome → (r.matchAt text cur k).isSome

/-- The matcher reads the character at `p` and goes on right after it. -/
def StepsOver (m : Cursor → Cont → Option Cursor) (p : Nat) : Prop :=
  ∀ cur k, cur.pos = p → m cur k = k { cur with pos := p + 1 }

/-- A loop with no upper bound whose body reads each character from `p` up to `q` can stop at
`q`, greedy or lazy: the greedy loop tries going on first and comes back, the lazy one tries
stopping first and goes on. The induction is on the fuel, one turn a character. -/
theorem loopFrom_reaches {body : Cursor → Cont → Option Cursor} {lo : Nat} {greedy : Bool}
    {p q : Nat} (hsteps : ∀ j, p ≤ j → j < q → StepsOver body j) :
    ∀ fuel count cur k, lo ≤ count → p ≤ cur.pos → cur.pos ≤ q → q - cur.pos < fuel →
      (k { cur with pos := q }).isSome → (loopFrom body lo none greedy fuel count cur k).isSome := by
  intro fuel
  induction fuel with
  | zero => intro _ _ _ _ _ _ h; omega
  | succ fuel ih =>
    intro count cur k hlo hp hq hfuel hk
    have hnone : (none == some count) = false := rfl
    simp only [loopFrom, if_neg (Nat.not_lt.2 hlo), hnone, Bool.false_eq_true, if_false]
    rcases Nat.lt_or_ge cur.pos q with hlt | hge
    · -- one more turn reads the character at the cursor and the loop goes on after it
      have hagain : (body cur fun next => if next.pos == cur.pos then k next
          else loopFrom body lo none greedy fuel (count + 1) next k).isSome := by
        rw [hsteps cur.pos hp hlt cur _ rfl]
        have hne : (cur.pos + 1 == cur.pos) = false := by simp
        simp only [hne, Bool.false_eq_true, if_false]
        exact ih (count + 1) _ k (Nat.le_succ_of_le hlo) (Nat.le_succ_of_le hp) hlt (by simp; omega) hk
      cases greedy
      · rw [if_neg Bool.false_ne_true]
        exact firstOf_isSome.2 (.inr hagain)
      · rw [if_pos rfl]
        exact firstOf_isSome.2 (.inl hagain)
    · -- the loop stands at `q`: stopping there succeeds
      have hcur : cur = { cur with pos := q } := by
        cases cur
        simp only at hge hq ⊢
        congr
        omega
      rw [← hcur] at hk
      cases greedy
      · rw [if_neg Bool.false_ne_true]
        exact firstOf_isSome.2 (.inl hk)
      · rw [if_pos rfl]
        exact firstOf_isSome.2 (.inr hk)

/-- A loop with no upper bound and no lower one can match from `p` to any `q` in the text up to
which its body reads each character. -/
theorem admits_loop {body : Regex} {greedy : Bool} {p q : Nat} (hq : q ≤ text.size)
    (hsteps : ∀ j, p ≤ j → j < q → StepsOver (body.matchAt text) j) (hpq : p ≤ q) :
    Admits text (.loop body 0 none greedy) p q := by
  intro cur k hcur hk
  exact loopFrom_reaches hsteps _ 0 cur k (Nat.le_refl _) (by omega) (by omega) (by omega) hk

theorem stepsOver_any {p : Nat} {c : Char} (hc : text.toList[p]? = some c) (hnl : c ≠ '\n') :
    StepsOver ((Regex.any false).matchAt text) p := by
  intro cur k hcur
  rw [Array.getElem?_toList] at hc
  simp only [Regex.matchAt, hcur, hc]
  have : (c != '\n') = true := bne_iff_ne.2 hnl
  simp [this]

/-- The alternative tried second is tried when the first fails. -/
theorem Admits.alt {a b : Regex} {p q : Nat} (hb : Admits text b p q) : Admits text (.alt a b) p q :=
  fun cur k hcur hk => firstOf_isSome.2 (.inr (hb cur k hcur hk))

/-- A group matches where its body can, and records where. -/
theorem Admits.group {body : Regex} {p q : Nat} (hb : Admits text body p q) (i : Nat) {cur : Cursor}
    {k : Cont} (hcur : cur.pos = p)
    (hk : (k ⟨q, cur.spans.setIfInBounds i (some (p, q))⟩).isSome) :
    ((Regex.group i body).matchAt text cur k).isSome := by
  refine hb cur _ hcur ?_
  rw [hcur]
  exact hk

end Routing.Regex
