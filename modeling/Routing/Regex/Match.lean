import Routing.Regex.Parse
/-!
# Matching a regex

The matcher tries the ways a regex can match in the order a leftmost-first engine prefers them:
the left alternative before the right one, one more turn of a greedy loop before leaving it, one
turn fewer of a lazy loop. It is written in continuation-passing style: `Regex.matchAt` matches a
regex at a position and hands every way it matched to the continuation, which decides whether
the match goes on; the first success is the answer. The recursion follows the syntax tree; only
a loop needs a bound, and gets one from the text left at its entry.

A loop stops turning after a turn that matched the empty string, so a loop whose body can match
nothing still ends. A search tries every start position from the left and takes the first that
matches.
-/

namespace Routing.Regex

open Routing.Unicode

/-- Where a match stands: the position in the text and the span each group matched so far
(the entry of group `i` is at index `i`). -/
structure Cursor where
  pos : Nat
  spans : Array (Option (Nat × Nat))
deriving Repr

/-- What still has to match after a piece, given where the piece ended. -/
abbrev Cont := Cursor → Option Cursor

/-- The first success of `a`, else `b`. -/
@[inline] def firstOf (a : Option Cursor) (b : Unit → Option Cursor) : Option Cursor :=
  match a with
  | some r => some r
  | none => b ()

/-- Whether the character at `i` is a word character. -/
def wordAt (text : Array Char) (i : Nat) : Bool :=
  match text[i]? with
  | some c => isWordChar c
  | none => false

/-- Whether an assertion holds at a position. -/
def Assertion.holds (text : Array Char) (pos : Nat) : Assertion → Bool
  | .startText => pos == 0
  | .endText => pos == text.size
  | .startLine => pos == 0 || text[pos - 1]? == some '\n'
  | .endLine => pos == text.size || text[pos]? == some '\n'
  | .wordBoundary => (pos > 0 && wordAt text (pos - 1)) != wordAt text pos
  | .notWordBoundary => (pos > 0 && wordAt text (pos - 1)) == wordAt text pos
  | .wordStart => !(pos > 0 && wordAt text (pos - 1)) && wordAt text pos
  | .wordEnd => (pos > 0 && wordAt text (pos - 1)) && !wordAt text pos

/-- Whether two characters are equal, up to case when `fold` holds. -/
def sameChar (fold : Bool) (a b : Char) : Bool :=
  a == b || (fold && equalFolded a b)

/-- Turns of a loop. `body` matches one turn; `count` turns are done. Below `lo` turns the loop
must go on; from then on a turn that does not advance ends the loop, and `greedy` says whether
one more turn is tried before leaving. `fuel` bounds the turns. -/
def loopFrom (body : Cursor → Cont → Option Cursor) (lo : Nat) (hi : Option Nat)
    (greedy : Bool) : Nat → Nat → Cursor → Cont → Option Cursor
  | 0, _, _, _ => none
  | fuel + 1, count, cur, k =>
    if count < lo then
      body cur fun next => loopFrom body lo hi greedy fuel (count + 1) next k
    else if hi == some count then k cur
    else
      let again (_ : Unit) : Option Cursor :=
        body cur fun next =>
          if next.pos == cur.pos then k next
          else loopFrom body lo hi greedy fuel (count + 1) next k
      if greedy then firstOf (again ()) fun _ => k cur
      else firstOf (k cur) again

/-- Matches a regex at the cursor and hands each way it matched to `k`, in order of preference;
the first success of `k` is the answer. -/
def matchAt (text : Array Char) : Regex → Cursor → Cont → Option Cursor
  | .empty, cur, k => k cur
  | .char c fold, cur, k =>
    match text[cur.pos]? with
    | some d => if sameChar fold c d then k { cur with pos := cur.pos + 1 } else none
    | none => none
  | .any newline, cur, k =>
    match text[cur.pos]? with
    | some d => if newline || d != '\n' then k { cur with pos := cur.pos + 1 } else none
    | none => none
  | .set s fold, cur, k =>
    match text[cur.pos]? with
    | some d => if s.contains fold d then k { cur with pos := cur.pos + 1 } else none
    | none => none
  | .assert a, cur, k => if a.holds text cur.pos then k cur else none
  | .group i body, cur, k =>
    body.matchAt text cur fun next =>
      k { next with spans := next.spans.setIfInBounds i (some (cur.pos, next.pos)) }
  | .concat a b, cur, k => a.matchAt text cur fun next => b.matchAt text next k
  | .alt a b, cur, k => firstOf (a.matchAt text cur k) fun _ => b.matchAt text cur k
  | .loop body lo hi greedy, cur, k =>
    loopFrom (fun c k' => body.matchAt text c k') lo hi greedy
      (lo + (text.size - cur.pos) + 1) 0 cur k
  | .atomic body, cur, k =>
    match body.matchAt text cur some with
    | some next => k next
    | none => none
  | .lookahead negated body, cur, k =>
    match body.matchAt text cur some with
    | some next => if negated then none else k { cur with spans := next.spans }
    | none => if negated then k cur else none
  | .lookbehind negated width body, cur, k =>
    let found :=
      if width ≤ cur.pos then
        body.matchAt text { cur with pos := cur.pos - width } fun next =>
          if next.pos == cur.pos then some next else none
      else none
    match found with
    | some next => if negated then none else k { cur with spans := next.spans }
    | none => if negated then k cur else none
  | .backref i fold, cur, k =>
    match cur.spans[i]? with
    | some (some (s, e)) =>
      let len := e - s
      if cur.pos + len ≤ text.size ∧
          (List.range len).all (fun j => sameChar fold (text[s + j]?.getD ' ') (text[cur.pos + j]?.getD ' '))
      then k { cur with pos := cur.pos + len }
      else none
    | _ => none

/-- The group spans of the leftmost match in `text`, the whole match at index 0. -/
def Pattern.search (p : Pattern) (text : Array Char) : Option (Array (Option (Nat × Nat))) :=
  let blank : Array (Option (Nat × Nat)) := Array.replicate (p.groups + 1) none
  (List.range (text.size + 1)).findSome? fun start =>
    (p.body.matchAt text { pos := start, spans := blank } some).map fun cur =>
      cur.spans.setIfInBounds 0 (some (start, cur.pos))

/-- The texts groups `1..n` matched in the leftmost match of `s`; a group that took no part in
the match is `none`. `none` when nothing matches. -/
def Pattern.captures (p : Pattern) (s : String) : Option (List (Option String)) :=
  let text := s.toList.toArray
  (p.search text).map fun spans =>
    (List.range p.groups).map fun i =>
      match spans[i + 1]? with
      | some (some (a, b)) => some (String.ofList ((text.extract a b).toList))
      | _ => none

/-- Whether the regex matches somewhere in `s`. -/
def Pattern.isMatch (p : Pattern) (s : String) : Bool :=
  (p.search s.toList.toArray).isSome

end Routing.Regex
