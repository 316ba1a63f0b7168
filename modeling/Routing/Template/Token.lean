/-!
# Template tokens

A route template is read into tokens: literal text, parameter spans and a final wildcard.
A parameter span is the part of a template from a `:` to the next `/`, `*` or end; it may hold
several parameters joined by literal separators (`:hour-:minute`), and becomes one trie node.
-/

namespace Routing

/-- A parameter span of a template. -/
structure ParamSpan where
  /-- The anchored regex the segment must match, when the span needs one: when it has a
  constraint, a literal separator or suffix, or more than one parameter. -/
  regex : Option String
  /-- The literal text after the last parameter of the span, when there is some. -/
  suffix : Option String
  /-- The template text of the span, such as `:hour-:minute`. -/
  source : String
deriving Repr, DecidableEq

/-- One piece of a template. -/
inductive Token where
  /-- Literal text, with `::` already read as `:`. Never empty. -/
  | text (s : String)
  | param (p : ParamSpan)
  /-- `*`: the rest of the path. -/
  | wildcard
deriving Repr, DecidableEq

/-- A template read into tokens, with its parameter names in order. -/
structure Route where
  tokens : List Token
  params : List String
deriving Repr, DecidableEq

/-- The only path a route answers when it has no parameters (`Route::literal_path`): `/` and its
literal texts. -/
def Route.literalPath (r : Route) : Option String :=
  r.tokens.foldlM (fun path t =>
    match t with
    | .text s => some (path ++ s)
    | _ => none) "/"

/-- The template text of a token: literal text with every `:` doubled, a span's own text, or
`*`. -/
def Token.render : Token → String
  | .text s => String.ofList (s.toList.flatMap fun c => if c = ':' then [':', ':'] else [c])
  | .param p => p.source
  | .wildcard => "*"

/-- The template text of a route, without the leading `/` the root owns. -/
def Route.render (r : Route) : String := String.join (r.tokens.map Token.render)

/-- A compiled template: a route, or an optional template that stands for two templates. -/
inductive Template where
  | route (r : Route)
  /-- A template ending in `/:name?`: `present` keeps the parameter, `absent` drops it. -/
  | optional (present absent : String)
deriving Repr, DecidableEq

end Routing
