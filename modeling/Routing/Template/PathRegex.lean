import Routing.Error
import Routing.Regex.Quote
import Routing.Regex.Match
import Routing.Template.Constraint
/-!
# The whole-path regex of a template

`PathRegex.ofTemplate` turns a template into one regex over a whole path, with a capture group per
parameter in order. The template is cut at every `/`; empty segments are dropped. A segment `*`
must be the last one and captures the rest of the path. In a segment holding a `:`, a `:` followed
by letters, digits or `_` is a parameter: its constraint, if a `{` follows, is its group, and
otherwise it matches one segment; a `?` after the name is allowed in the last segment only (the
parameter is still required). Everything else is quoted. The regex is anchored at both ends and
allows one trailing `/`.
-/

namespace Routing

open Routing.Regex

/-- Splits text at every `/`; the pieces between slashes may be empty. -/
def splitSlash (cs : List Char) : List (List Char) :=
  cs.splitOn '/'

/-- Whether `c` may stand in a parameter name of a whole-path template. -/
def isParamNameChar (c : Char) : Bool := c.isAlphanum || c == '_'

/-- The regex of one segment holding a `:` (`segment_regex`, after its brace check). `isLast` says
whether the segment is the last of the template. Answers the regex text and the parameter names, in
order. -/
def segmentParts (pattern : String) (isLast : Bool) (cs : List Char) (out : String)
    (names : List String) : Except RouteError (String × List String) :=
  match cs with
  | [] => pure (out, names)
  | c :: r =>
    let name := r.takeWhile isParamNameChar
    if c != ':' || name.isEmpty then
      segmentParts pattern isLast r (out ++ quote (String.singleton c)) names
    else do
      let names := names ++ [String.ofList name]
      let afterName := r.drop name.length
      let afterMark ← match afterName with
        | '?' :: t => if isLast then pure t else throw (.optionalNotLast pattern)
        | _ => pure afterName
      match afterMark with
      | '\x7b' :: t =>
        match closeBrace t with
        | some (inner, after) =>
          if after.length < r.length + 1 then
            segmentParts pattern isLast after (out ++ "(" ++ String.ofList (trimAnchors inner) ++ ")")
              names
          else throw (.unbalancedConstraint pattern)
        | none => throw (.unbalancedConstraint pattern)
      | _ =>
        if afterMark.length < r.length + 1 then
          segmentParts pattern isLast afterMark (out ++ "([^/]+)") names
        else throw (.unbalancedConstraint pattern)
termination_by cs.length

/-- The regex of a segment holding a `:`; its first `{` must be closed (`segment_regex`). -/
def segmentRegex (pattern : String) (isLast : Bool) (seg : List Char) :
    Except RouteError (String × List String) :=
  match seg.dropWhile (· != '\x7b') with
  | _ :: t =>
    if (closeBrace t).isNone then throw (.unbalancedConstraint pattern)
    else segmentParts pattern isLast seg "" []
  | [] => segmentParts pattern isLast seg "" []

/-- A template's whole-path regex, as text and read, with its parameter names. -/
structure PathRegex where
  source : String
  regex : Pattern
  names : List String

/-- The regex texts of the segments and their parameter names, read left to right so that the
first faulty segment gives the error. `last` is the index of the last segment. -/
def segmentsRegex (pattern : String) (last : Nat) (segs : List (List Char)) :
    Except RouteError (List String × List String) :=
  segs.zipIdx.foldlM (fun acc (seg, i) => do
    let (parts, names) := acc
    if seg.isEmpty then pure (parts, names)
    else if seg == ['*'] then
      if i != last then throw (.wildcardNotLast pattern)
      else pure (parts ++ ["(.*)"], names ++ ["*"])
    else if seg.contains ':' then do
      let (part, segNames) ← segmentRegex pattern (i == last) seg
      pure (parts ++ [part], names ++ segNames)
    else pure (parts ++ [quote (String.ofList seg)], names)) ([], [])

/-- Builds the whole-path regex of a template (`to_regex`). -/
def PathRegex.ofTemplate (pattern : String) : Except RouteError PathRegex := do
  if pattern.isEmpty then throw .empty
  let segs := splitSlash pattern.toList
  let (parts, names) ← segmentsRegex pattern (segs.length - 1) segs
  let source := "^/" ++ "/".intercalate parts ++ "/?$"
  match Pattern.parse source with
  | .ok regex => pure { source, regex, names }
  | .error _ => throw (.invalidConstraint pattern)

end Routing
