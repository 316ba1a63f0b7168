/-!
# Constraint braces

A constraint is the text between a `{` after a parameter name and its matching `}`. Braces nest,
and a backslash hides the character after it from the count, so `\}` does not close.
-/

namespace Routing

/-- Reads a constraint after its `{`: the text up to the matching `}` and what follows that
`}`. `depth` counts the braces open, `acc` holds the text read so far, last character first.
`none` when the braces never balance. -/
def closeBraceFrom : List Char → Nat → List Char → Option (List Char × List Char)
  | [], _, _ => none
  | ['\\'], _, _ => none
  | '\\' :: c :: rest, depth, acc => closeBraceFrom rest depth (c :: '\\' :: acc)
  | c :: rest, depth, acc =>
    if c = '\x7b' then closeBraceFrom rest (depth + 1) (c :: acc)
    else if c = '\x7d' then
      if depth ≤ 1 then some (acc.reverse, rest) else closeBraceFrom rest (depth - 1) (c :: acc)
    else closeBraceFrom rest depth (c :: acc)

/-- The constraint after a `{` and the text after its `}` (`closing_brace`). -/
def closeBrace (cs : List Char) : Option (List Char × List Char) :=
  closeBraceFrom cs 1 []

/-- A constraint without its anchors (`trim_anchors`): one leading `^` goes, and one trailing `$`
unless a backslash stands before it. -/
def trimAnchors (c : List Char) : List Char :=
  let c := match c with
    | '^' :: t => t
    | _ => c
  match c.reverse with
  | '$' :: t =>
    match t with
    | '\\' :: _ => c
    | _ => t.reverse
  | _ => c

end Routing
