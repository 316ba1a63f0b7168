import Routing.Text.Utf8
/-!
# Percent-decoding

`percentDecode` reads `%XX` (two hexadecimal digits of either case) as the byte `0xXX`; every other
character, `%` and `+` included, stands for its own UTF-8 bytes. When the bytes do not spell
UTF-8 text, or the text holds no `%`, the text is returned as it is.
-/

namespace Routing.Text

/-- The value of a hexadecimal digit. -/
def hexDigit? (c : Char) : Option Nat :=
  if '0' ≤ c ∧ c ≤ '9' then some (c.toNat - '0'.toNat)
  else if 'a' ≤ c ∧ c ≤ 'f' then some (c.toNat - 'a'.toNat + 10)
  else if 'A' ≤ c ∧ c ≤ 'F' then some (c.toNat - 'A'.toNat + 10)
  else none

/-- The bytes a percent-encoded text stands for. -/
def percentBytes : List Char → List Nat
  | [] => []
  | '%' :: a :: b :: r =>
    match hexDigit? a, hexDigit? b with
    | some x, some y => (x * 16 + y) :: percentBytes r
    | _, _ => '%'.toNat :: percentBytes (a :: b :: r)
  | c :: r => utf8Encode c ++ percentBytes r

/-- Decodes a percent-encoded parameter value (`decode_param`); a value that does not decode to
UTF-8 text is kept as it is. -/
def percentDecode (s : String) : String :=
  if s.toList.contains '%' then
    match utf8Decode (percentBytes s.toList) with
    | some cs => String.ofList cs
    | none => s
  else s

example : percentDecode "%2%41" = "%2A" ∧ percentDecode "%fF" = "%fF" ∧
    percentDecode "a+b%20c" = "a+b c" := by
  decide +kernel

end Routing.Text
