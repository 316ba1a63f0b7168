import Routing.Template.Token
import Routing.Regex.Engine
/-!
# The paths a route reads

`Route.pathValues?` says directly which paths a route matches and with which values, without the
trie. After the leading `/`, the tokens read the path from left to right: literal text reads
exactly itself; a parameter span reads the longest run without `/` and gives it as one value when
it has no regex, or the groups of its regex matched against the run (a group that took no part
gives the empty value), failing when the regex does not match or the engine gives up; the wildcard
reads the rest of the path as one value. The whole path must be read. The regex engine is an
instance argument, the same one the trie's walk asks.
-/

namespace Routing

open Routing.Regex

variable [Engine]

/-- The values a segment gives to a parameter span with the regex text `regex`, if the span
accepts the segment. -/
def segmentValues? (regex : Option String) (segment : String) : Option (List String) :=
  match regex with
  | none => some [segment]
  | some source =>
    match Pattern.parse source with
    | .ok pat => pat.groupValues? segment
    | .error _ => none

/-- The values a parameter span gives for a segment, if it accepts the segment. -/
def ParamSpan.valuesOf? (p : ParamSpan) (segment : String) : Option (List String) :=
  segmentValues? p.regex segment

/-- The values tokens read from the whole of `cs`. -/
def tokensRead? : List Token → List Char → Option (List String)
  | [], [] => some []
  | [], _ :: _ => none
  | .text s :: ts, cs =>
    if s.toList.isPrefixOf cs then tokensRead? ts (cs.drop s.length) else none
  | .param p :: ts, cs =>
    match p.valuesOf? (String.ofList (cs.takeWhile (· != '/'))) with
    | some vs => (vs ++ ·) <$> tokensRead? ts (cs.dropWhile (· != '/'))
    | none => none
  | .wildcard :: ts, cs => (String.ofList cs :: ·) <$> tokensRead? ts []

/-- The values a route reads from a path, when it matches the path. -/
def Route.pathValues? (r : Route) (path : String) : Option (List String) :=
  match path.toList with
  | '/' :: rest => tokensRead? r.tokens rest
  | _ => none

end Routing
