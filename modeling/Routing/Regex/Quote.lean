/-!
# Quoting text for a regex

`quote t` is a regex that matches exactly the text `t`: a backslash goes before each character
that has a meaning of its own in a regex, and every other character stands for itself.
-/

namespace Routing.Regex

/-- The characters that have a meaning of their own in a regex. -/
def isMeta (c : Char) : Bool :=
  c == '.' || c == '*' || c == '+' || c == '?' || c == '^' || c == '$' || c == '\x7b' ||
    c == '\x7d' || c == '(' || c == ')' || c == '|' || c == '[' || c == ']' || c == '\\'

/-- The characters of a quoted text. -/
def quoteChars : List Char → List Char
  | [] => []
  | c :: cs => if isMeta c then '\\' :: c :: quoteChars cs else c :: quoteChars cs

/-- A regex matching exactly `t` (`escape_literal`). -/
def quote (t : String) : String := String.ofList (quoteChars t.toList)

theorem quoteChars_append (a b : List Char) :
    quoteChars (a ++ b) = quoteChars a ++ quoteChars b := by
  induction a with
  | nil => rfl
  | cons c cs ih => by_cases h : isMeta c <;> simp [quoteChars, h, ih]

example : quote "a.b" = "a\\.b" := by decide

end Routing.Regex
