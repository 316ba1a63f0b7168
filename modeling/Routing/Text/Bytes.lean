/-!
# Byte offsets in texts

A text is read as characters, and a position in it is a byte offset into its UTF-8 form.
`charIndices` pairs each character with the offset where it starts (`str::char_indices`).
`takeBytes` and `dropBytes` cut a text at an offset (`&text[..n]`, `&text[n..]`,
`String::split_off`), exactly when the offset ends a character.

`commonPrefixLen` is the byte length of the longest common beginning of two texts, in whole
characters (`common_prefix_len`): the characters of the first text, with their offsets, are zipped
with the characters of the second, the equal pairs at the front are kept, and the answer is where
the last of them ends, or 0 when there is none.
-/

namespace Routing.Text

/-- Each character of a text with the byte offset where it starts, counting from `offset`
(`str::char_indices`). -/
def charIndices : List Char → Nat → List (Nat × Char)
  | [], _ => []
  | c :: cs, offset => (offset, c) :: charIndices cs (offset + c.utf8Size)

/-- The byte length of the longest common beginning of two texts, in whole characters
(`common_prefix_len`). -/
def commonPrefixLen (a b : List Char) : Nat :=
  match (((charIndices a 0).zip b).takeWhile fun p => p.1.2 == p.2).getLast? with
  | some ((index, ch), _) => index + ch.utf8Size
  | none => 0

/-- The characters within the first `n` bytes of a text. -/
def takeBytes : List Char → Nat → List Char
  | [], _ => []
  | c :: cs, n => if n = 0 then [] else c :: takeBytes cs (n - c.utf8Size)

/-- The characters after the first `n` bytes of a text. -/
def dropBytes : List Char → Nat → List Char
  | [], _ => []
  | c :: cs, n => if n = 0 then c :: cs else dropBytes cs (n - c.utf8Size)

end Routing.Text
