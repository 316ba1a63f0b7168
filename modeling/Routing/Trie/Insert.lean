import Routing.Template.Token
import Routing.Error
import Routing.Trie.Node
import Routing.Text.Bytes
/-!
# Inserting a route

`Trie.insert` adds a route's tokens below the root and appends the handler at the node where the
route ends. Literal text goes down literal children, splitting a child whose text diverges from
the text being inserted: the child keeps its id and the tail of its text, and a new node with the
common head takes its place. A parameter span joins the sibling with the same regex text, or
becomes a new sibling placed before the first sibling that sorts after it. A wildcard reuses the
node's wildcard child. Every regex is read before the trie changes, so a refused route leaves the
trie as it was.
-/

namespace Routing

open Routing.Regex

/-- Sets the value of a key, or adds the key at the end. -/
def setKey {β : Type} (xs : List (Char × β)) (k : Char) (v : β) : List (Char × β) :=
  if xs.any (·.1 == k) then xs.map fun e => if e.1 == k then (k, v) else e else xs ++ [(k, v)]

/-- A token whose regex has been read. -/
inductive ReadyToken where
  | text (s : String)
  | param (span : ParamSpan) (constraint : Option Constraint)
  | wildcard

namespace Trie

variable {α : Type}

/-- Splits the literal child `child` of `parent` after `cut` bytes of its text (`Trie::split`):
the child keeps the tail of its text, and a new node with the head, whose only child is `child`,
takes its place. -/
def split (t : Trie α) (parent child : NodeId) (cut : Nat) : Trie α × NodeId :=
  let whole := (t.text child).toList
  let head := Text.takeBytes whole cut
  let tail := Text.dropBytes whole cut
  let t := t.modify child fun n => { n with kind := .literal (String.ofList tail) }
  let literals := match tail with
    | c :: _ => [(c, child)]
    | [] => []
  let (t, id) := t.push { kind := .literal (String.ofList head), literals }
  match head with
  | c :: _ => (t.modify parent fun n => { n with literals := setKey n.literals c id }, id)
  | [] => (t, id)

/-- The node reached from `parent` by the literal text `rest`, created or split as needed
(`Trie::static_child`). The child keyed by the next character is split where its text and `rest`
part, a byte offset; `fuel` bounds the steps, and each step consumes at least one character. -/
def literalChild (t : Trie α) : Nat → NodeId → List Char → Trie α × NodeId
  | 0, parent, _ => (t, parent)
  | fuel + 1, parent, rest =>
    match rest with
    | [] => (t, parent)
    | first :: _ =>
      match (t.node? parent).bind fun n => n.literals.lookup first with
      | none =>
        let (t, id) := t.push { kind := .literal (String.ofList rest) }
        (t.modify parent (fun n => { n with literals := setKey n.literals first id }), id)
      | some child =>
        let text := (t.text child).toList
        let common := Text.commonPrefixLen text rest
        let (t, next) := if common < (t.text child).utf8ByteSize then t.split parent child common else (t, child)
        literalChild t fuel next (Text.dropBytes rest common)

/-- The parameter child of `parent` for a span (`Trie::parametric_child`): the sibling with the same
regex text, which records the span's text, or a new sibling in priority order. -/
def paramChild (t : Trie α) (parent : NodeId) (span : ParamSpan) (constraint : Option Constraint) :
    Trie α × NodeId :=
  let siblings := ((t.node? parent).map (·.params)).getD []
  let signature := constraint.map (·.source)
  match siblings.find? (fun id => ((t.param? id).map (·.signature)) == some signature) with
  | some id =>
    let t := t.modify id fun n =>
      match n.kind with
      | .param p =>
        if p.sources.contains span.source then n
        else { n with kind := .param { p with sources := p.sources ++ [span.source] } }
      | _ => n
    (t, id)
  | none =>
    let candidate : ParamNode := { constraint, suffix := span.suffix, sources := [span.source] }
    let position := (siblings.findIdx? fun id =>
      ((t.param? id).map (·.sortsAfter candidate)).getD false).getD siblings.length
    let (t, id) := t.push { kind := .param candidate }
    (t.modify parent fun n => { n with params := n.params.insertIdx position id }, id)

/-- The wildcard child of `parent`, created if missing (`Trie::wildcard_child`). -/
def wildcardChild (t : Trie α) (parent : NodeId) : Trie α × NodeId :=
  match (t.node? parent).bind (·.wildcard) with
  | some id => (t, id)
  | none =>
    let (t, id) := t.push { kind := .wildcard }
    (t.modify parent fun n => { n with wildcard := some id }, id)

/-- Reads the regex of every parameter span of a route (`Trie::compile_regex`); the first that is no
regex refuses the template `pattern`. -/
def readyTokens (pattern : String) (tokens : List Token) : Except RouteError (List ReadyToken) :=
  tokens.mapM fun
    | .text s => pure (.text s)
    | .wildcard => pure .wildcard
    | .param span =>
      match span.regex with
      | none => pure (.param span none)
      | some source =>
        match Pattern.parse source with
        | .ok regex => pure (.param span (some { source, regex }))
        | .error _ => throw (.invalidConstraint pattern)

/-- Follows one token from the node `parent`. -/
def descend (t : Trie α) (parent : NodeId) : ReadyToken → Trie α × NodeId
  | .text s => t.literalChild (s.length + 1) parent s.toList
  | .param span constraint => t.paramChild parent span constraint
  | .wildcard => t.wildcardChild parent

/-- Inserts a route of the template `pattern` with a handler under a method (`Trie::insert`).
Answers the trie and the node where the route ends. -/
def insert (t : Trie α) (method pattern : String) (route : Route) (value : α) :
    Except RouteError (Trie α × NodeId) := do
  let ready ← readyTokens pattern route.tokens
  let (t, last) := ready.foldl (fun (acc : Trie α × NodeId) tok => acc.1.descend acc.2 tok) (t, rootId)
  let handler : Handler α := { value, params := { names := route.params } }
  let t := t.modify last fun n =>
    { n with handlers := some ((n.handlers.getD .empty).push method handler) }
  pure (t, last)

end Trie

end Routing
