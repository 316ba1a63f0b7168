/-!
# UTF-8

Characters as bytes and back. `utf8Decode` accepts exactly the well-formed byte sequences of the
standard: no overlong forms, no surrogates, nothing above U+10FFFF, and every continuation byte
in `0x80 … 0xBF`.
-/

namespace Routing.Text

/-- The UTF-8 bytes of a character. -/
def utf8Encode (c : Char) : List Nat :=
  let n := c.toNat
  if n < 0x80 then [n]
  else if n < 0x800 then [0xC0 + n / 64, 0x80 + n % 64]
  else if n < 0x10000 then [0xE0 + n / 4096, 0x80 + n / 64 % 64, 0x80 + n % 64]
  else [0xF0 + n / 262144, 0x80 + n / 4096 % 64, 0x80 + n / 64 % 64, 0x80 + n % 64]

/-- Whether `lo ≤ b ≤ hi`. -/
@[inline] def byteIn (lo hi b : Nat) : Bool := lo ≤ b && b ≤ hi

/-- The characters a byte sequence spells, if it is well-formed UTF-8. -/
def utf8Decode : List Nat → Option (List Char)
  | [] => some []
  | b0 :: rest =>
    if b0 < 0x80 then (Char.ofNat b0 :: ·) <$> utf8Decode rest
    else if byteIn 0xC2 0xDF b0 then
      match rest with
      | b1 :: r =>
        if byteIn 0x80 0xBF b1 then
          (Char.ofNat ((b0 - 0xC0) * 64 + (b1 - 0x80)) :: ·) <$> utf8Decode r
        else none
      | _ => none
    else if byteIn 0xE0 0xEF b0 then
      match rest with
      | b1 :: b2 :: r =>
        let lo := if b0 == 0xE0 then 0xA0 else 0x80
        let hi := if b0 == 0xED then 0x9F else 0xBF
        if byteIn lo hi b1 && byteIn 0x80 0xBF b2 then
          (Char.ofNat ((b0 - 0xE0) * 4096 + (b1 - 0x80) * 64 + (b2 - 0x80)) :: ·) <$> utf8Decode r
        else none
      | _ => none
    else if byteIn 0xF0 0xF4 b0 then
      match rest with
      | b1 :: b2 :: b3 :: r =>
        let lo := if b0 == 0xF0 then 0x90 else 0x80
        let hi := if b0 == 0xF4 then 0x8F else 0xBF
        if byteIn lo hi b1 && byteIn 0x80 0xBF b2 && byteIn 0x80 0xBF b3 then
          (Char.ofNat ((b0 - 0xF0) * 262144 + (b1 - 0x80) * 4096 + (b2 - 0x80) * 64 + (b3 - 0x80)) :: ·)
            <$> utf8Decode r
        else none
      | _ => none
    else none

example : utf8Decode (utf8Encode 'é' ++ utf8Encode '😀') = some ['é', '😀'] := by decide

end Routing.Text
