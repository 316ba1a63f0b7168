import Routing.Regex.Match
/-!
# The regex engine a router asks

A router reads a constraint's regex text itself (`Pattern.parse`) and leaves the search to an
engine. `Engine.captures` answers the texts of groups `1..n` in the leftmost match of a pattern in
a text, `none` for a group that took no part; `none` when nothing matches; or an error when the
engine gives up on the search, as `Regex::captures` answers `Err` when it runs out of backtracking
budget. `Trie::enter` treats the last two alike ("treating as no match"), and so does
`Pattern.groupValues?`, the one place the walk and the path reader ask the engine.

The walk and the path reader take the engine as an instance argument, so what is proved of them
holds for every engine. This library's engine is `Engine.backtracking`, the leftmost-first
backtracking search of `Pattern.captures`, which always answers.
-/

namespace Routing.Regex

/-- Why an engine gives up on a search. -/
inductive SearchError where
  /-- The search backtracked more often than the engine allows. -/
  | backtrackLimitExceeded
  /-- The search went deeper than the engine's stack allows. -/
  | stackOverflow
deriving DecidableEq, Repr

/-- A regex engine as a router asks it: the groups of the leftmost match of a pattern in a text,
`none` when nothing matches, or why it gave up. -/
class Engine where
  captures : Pattern → String → Except SearchError (Option (List (Option String)))

/-- The engine of this library: the leftmost-first backtracking search, which always answers. -/
instance Engine.backtracking : Engine where
  captures p s := .ok (p.captures s)

/-- The values a pattern gives a segment, one per group, the empty text for a group that took no
part; `none` when the pattern does not match or the engine gives up. -/
def Pattern.groupValues? [Engine] (p : Pattern) (segment : String) : Option (List String) :=
  match Engine.captures p segment with
  | .ok (some groups) => some (groups.map (·.getD ""))
  | .ok none => none
  | .error _ => none

/-- Under the backtracking engine the values are the groups `Pattern.captures` finds. -/
@[simp] theorem Pattern.groupValues?_backtracking (p : Pattern) (segment : String) :
    p.groupValues? segment = (p.captures segment).map fun groups => groups.map (·.getD "") := by
  simp only [groupValues?, Engine.captures]
  cases p.captures segment <;> rfl

end Routing.Regex
