/-!
# Simple case folding

Two characters are case variants when one is the simple upper or lower case form of the other.
The pairs cover ASCII, the Latin, Greek, Cyrillic and Armenian alphabets with their extensions,
the full-width Latin letters, and the letter-like signs that fold into them (Kelvin, Ångström,
long s, capital sharp s). A case-insensitive regex compares characters up to these variants.
-/

namespace Routing.Unicode

/-- Within `lo ≤ n ≤ hi`, letters come in pairs, the capital at the even (or, when `oddUpper`,
the odd) code point and its small letter right after it. -/
def pairedVariant (lo hi : Nat) (oddUpper : Bool) (n : Nat) : Option Nat :=
  if lo ≤ n ∧ n ≤ hi then
    if (n % 2 == 1) == oddUpper then some (n + 1) else some (n - 1)
  else none

/-- A block of capitals at `up ≤ n < up + len` whose small letters lie at `n + delta`. -/
def shiftedVariant (up len delta : Nat) (n : Nat) : Option Nat :=
  if up ≤ n ∧ n < up + len then some (n + delta)
  else if up + delta ≤ n ∧ n < up + len + delta then some (n - delta)
  else none

/-- Letters whose variants are given one by one: each entry lists a whole class of variants. -/
def foldClasses : List (List Nat) := [
  [0x4B, 0x6B, 0x212A], [0x53, 0x73, 0x17F], [0xC5, 0xE5, 0x212B], [0xDF, 0x1E9E],
  [0xB5, 0x39C, 0x3BC], [0xFF, 0x178],
  [0x3A3, 0x3C2, 0x3C3], [0x392, 0x3B2, 0x3D0], [0x398, 0x3B8, 0x3D1], [0x3A6, 0x3C6, 0x3D5],
  [0x3A0, 0x3C0, 0x3D6], [0x39A, 0x3BA, 0x3F0], [0x3A1, 0x3C1, 0x3F1], [0x395, 0x3B5, 0x3F5],
  [0x399, 0x3B9, 0x345, 0x1FBE]]

/-- The variant of a code point given by the block rules, if any. -/
def blockVariant (n : Nat) : Option Nat :=
  let rules : List (Nat → Option Nat) := [
    shiftedVariant 0x41 26 32,
    fun n => if n = 0xD7 ∨ n = 0xF7 then none else shiftedVariant 0xC0 31 32 n,
    pairedVariant 0x100 0x12F false, pairedVariant 0x132 0x137 false,
    pairedVariant 0x139 0x148 true, pairedVariant 0x14A 0x177 false,
    pairedVariant 0x179 0x17E true,
    shiftedVariant 0x391 17 32, shiftedVariant 0x3A3 9 32,
    pairedVariant 0x3D8 0x3EF false,
    shiftedVariant 0x410 32 32, shiftedVariant 0x400 16 80,
    pairedVariant 0x460 0x481 false, pairedVariant 0x48A 0x4BF false,
    pairedVariant 0x4C1 0x4CE true, pairedVariant 0x4D0 0x52F false,
    shiftedVariant 0x531 38 48,
    pairedVariant 0x1E00 0x1E95 false, pairedVariant 0x1EA0 0x1EFF false,
    shiftedVariant 0xFF21 26 32]
  rules.findSome? fun rule => rule n

/-- The other characters that compare equal to `c` when case is ignored. -/
def caseVariants (c : Char) : List Char :=
  let n := c.toNat
  match foldClasses.find? (fun cls => cls.contains n) with
  | some cls => (cls.filter (· != n)).map Char.ofNat
  | none =>
    match blockVariant n with
    | some m => [Char.ofNat m]
    | none => []

/-- Whether `a` and `b` are equal up to case. -/
def equalFolded (a b : Char) : Bool :=
  a == b || (caseVariants a).contains b

example : equalFolded 'a' 'A' = true ∧ equalFolded 'é' 'É' = true ∧ equalFolded 'k' 'K' = true ∧
    equalFolded 'a' 'b' = false := by
  decide +kernel

end Routing.Unicode
