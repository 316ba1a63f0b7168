import Routing.Error
import Routing.Regex.Quote
import Routing.Template.Token
import Routing.Template.Constraint
/-!
# Compiling a template

`Template.compile` reads a route template into tokens. A template starts with `/` or `*`; the
root owns the leading `/`. Literal text runs up to a `:` that starts a parameter (a doubled `::`
is a literal `:`), or to a final `*`. A template whose last segment is an optional parameter
`/:name?` (possibly constrained, `/:id{\d+}?`, and possibly followed by one `/`) compiles to the
two templates it stands for instead.

A parameter span runs from its `:` to the next `/`, `*` or end. Each parameter's name stops at
one of `{ - . / * :`. A constrained parameter matches its constraint; the first unconstrained
parameter, or one right after a constraint, matches lazily (`(.*?)`); a later one after a
literal separator `D` matches `D` itself or a run free of `D`. The literal text after a parameter
runs to `/`, `*` or a single `:`, which chains the next parameter. The span gets a regex when it
has a constraint, a literal, or a chained parameter.
-/

namespace Routing

open Routing.Regex

/-- Characters that end a parameter name inside a span. -/
def endsParamName (c : Char) : Bool :=
  c == '\x7b' || c == '-' || c == '.' || c == '/' || c == '*' || c == ':'

/-- The literal text after a parameter and what follows it: the text runs up to a `/`, a `*` or
a `:` that is not doubled; a doubled `::` is read as `:`. -/
def spanLiteral : List Char → List Char × List Char
  | [] => ([], [])
  | ':' :: ':' :: r =>
    let (l, rest) := spanLiteral r
    (':' :: l, rest)
  | c :: r =>
    if c = '/' ∨ c = '*' ∨ c = ':' then ([], c :: r)
    else
      let (l, rest) := spanLiteral r
      (c :: l, rest)

/-- The regex of a parameter span while it is read. -/
structure SpanRegex where
  /-- The regex so far, without anchors. -/
  body : String := ""
  /-- Whether the span needs a regex at all. -/
  needed : Bool := false
  /-- Whether the next unconstrained parameter may match lazily: at the start of the span and
  right after a constraint. -/
  lazyNext : Bool := true
  /-- The quoted literal after the last parameter. -/
  separator : String := ""
  /-- The parameter names read, in order. -/
  names : List String := []
deriving Repr

/-- The group an unconstrained parameter after the separator `d` matches: `d` itself, or a run
in which `d` does not start. -/
def separatedGroup (d : String) : String :=
  "(" ++ d ++ "|(?:(?!" ++ d ++ ").)*)"

/-- Reads the group of one parameter, `afterName` being the template after its name: its
constraint, or the group an unconstrained parameter matches. Answers the regex so far and the
rest of the template. -/
def readGroup (pattern : String) (afterName : List Char) (st : SpanRegex) :
    Except RouteError (SpanRegex × List Char) :=
  match afterName with
  | '\x7b' :: t =>
    match closeBrace t with
    | some (inner, after) =>
      pure ({ st with
        body := st.body ++ "(" ++ String.ofList (trimAnchors inner) ++ ")"
        needed := true
        lazyNext := true }, after)
    | none => throw (.unbalancedConstraint pattern)
  | _ =>
    if st.lazyNext || st.separator.isEmpty then
      pure ({ st with body := st.body ++ "(.*?)", lazyNext := false }, afterName)
    else pure ({ st with body := st.body ++ separatedGroup st.separator }, afterName)

/-- Reads the parameters of a span after a `:`. Answers the regex, the literal after the last
parameter, and the rest of the template. -/
def readSpan (pattern : String) (cs : List Char) (st : SpanRegex) :
    Except RouteError (SpanRegex × List Char × List Char) := do
  let name := cs.takeWhile (!endsParamName ·)
  let afterName := cs.dropWhile (!endsParamName ·)
  let (st, afterGroup) ← readGroup pattern afterName { st with names := st.names ++ [String.ofList name] }
  let (lit, rest) := spanLiteral afterGroup
  let sep := quote (String.ofList lit)
  let st := { st with separator := sep, body := st.body ++ sep, needed := st.needed || !lit.isEmpty }
  match rest with
  | ':' :: more =>
    if more.length < cs.length then readSpan pattern more { st with needed := true }
    else throw (.unbalancedConstraint pattern)
  | _ => pure (st, lit, rest)
termination_by cs.length

/-- Reads a parameter span after its `:` (`parse_param`): the span, its parameter names, and the
rest. -/
def readParamSpan (pattern : String) (cs : List Char) :
    Except RouteError (ParamSpan × List String × List Char) := do
  let (st, lit, rest) ← readSpan pattern cs {}
  let span : ParamSpan := {
    regex := if st.needed then some ("^" ++ st.body ++ "$") else none
    suffix := if lit.isEmpty then none else some (String.ofList lit)
    source := String.ofList (':' :: cs.take (cs.length - rest.length)) }
  pure (span, st.names, rest)

/-- Appends the literal text read so far as a token, unless it is empty (`flush_literal`). -/
def flushText (lit : List Char) (acc : List Token) : List Token :=
  if lit.isEmpty then acc else acc ++ [.text (String.ofList lit)]

/-- Reads the tokens of a template body (`tokenize`). `lit` is the literal text read since the last
token, `acc` the tokens and `names` the parameter names so far. -/
def readTokens (pattern : String) (cs : List Char) (lit : List Char) (acc : List Token)
    (names : List String) : Except RouteError Route :=
  match cs with
  | [] => pure { tokens := flushText lit acc, params := names }
  | ':' :: ':' :: r => readTokens pattern r (lit ++ [':']) acc names
  | ':' :: r => do
    let (span, spanNames, rest) ← readParamSpan pattern r
    if rest.length < r.length + 1 then
      readTokens pattern rest [] (flushText lit acc ++ [.param span]) (names ++ spanNames)
    else throw (.unbalancedConstraint pattern)
  | '*' :: r =>
    if r.isEmpty then pure { tokens := flushText lit acc ++ [.wildcard], params := names ++ ["*"] }
    else throw (.wildcardNotLast pattern)
  | c :: r => readTokens pattern r (lit ++ [c]) acc names
termination_by cs.length

/-- The tokens of a template that is not optional. -/
def Route.ofTemplate (pattern : String) : Except RouteError Route :=
  let body := match pattern.toList with
    | '/' :: t => t
    | cs => cs
  readTokens pattern body [] [] []

/-- Characters that end the name of a possibly optional parameter. -/
def endsOptionalName (c : Char) : Bool :=
  c == '/' || c == '?' || c == '\x7b' || c == '\x7d' || c == '(' || c == ')'

/-- Looks for an optional parameter `/:name?` (`split_optional`) from position `pre` of the
template `whole`, where `cs` is the template from that position on. Answers the two templates it
stands for. -/
def findOptional (whole : List Char) : Nat → List Char → Except RouteError (Option (String × String))
  | pre, '/' :: ':' :: r =>
    let name := r.takeWhile (!endsOptionalName ·)
    let after := r.dropWhile (!endsOptionalName ·)
    let (len, afterParam) : Nat × List Char := match after with
      | '\x7b' :: t =>
        match closeBrace t with
        | some (inner, rest) => (name.length + inner.length + 2, rest)
        | none => (name.length, after)
      | _ => (name.length, after)
    match afterParam with
    | '?' :: trailing =>
      if trailing.isEmpty || trailing == ['/'] then
        let present := whole.take (pre + 2 + len) ++ trailing
        let absent := whole.take pre ++ trailing
        pure (some (String.ofList present, if absent.isEmpty then "/" else String.ofList absent))
      else throw (.optionalNotLast (String.ofList whole))
    | _ => findOptional whole (pre + 2) r
  | pre, _ :: r => findOptional whole (pre + 1) r
  | _, [] => pure none

/-- Compiles a route template (`compile`). -/
def Template.compile (pattern : String) : Except RouteError Template :=
  match pattern.toList with
  | [] => throw .empty
  | c :: _ =>
    if c = '/' ∨ c = '*' then do
      match ← findOptional pattern.toList 0 pattern.toList with
      | some (present, absent) => pure (.optional present absent)
      | none => .route <$> Route.ofTemplate pattern
    else throw (.invalidStart pattern)

end Routing
