import Routing.Regex.Syntax
/-!
# Named character properties

The names a regex may write as `\p{Name}` (or `\pL` for a one-letter name). Names are matched
loosely: case, spaces, underscores and hyphens are ignored. The general categories of letters and
digits and the common scripts are known; any other name is refused.

The sets of letters follow the letter table of `Routing.Unicode.Word`; the upper and lower case
letters are those of the Latin, Greek and Cyrillic alphabets.
-/

namespace Routing.Regex

open Routing.Unicode

/-- A name with case, spaces, underscores and hyphens removed. -/
def looseName (s : String) : String :=
  String.ofList ((s.toList.filter fun c => c != ' ' && c != '_' && c != '-').map Char.toLower)

/-- The upper case letters of the Latin, Greek and Cyrillic alphabets. -/
def upperLetters : RangeTable := RangeTable.ofPairs [
  (0x41, 0x5A), (0xC0, 0xD6), (0xD8, 0xDE), (0x391, 0x3A1), (0x3A3, 0x3AB), (0x400, 0x42F)]

/-- The lower case letters of the Latin, Greek and Cyrillic alphabets. -/
def lowerLetters : RangeTable := RangeTable.ofPairs [
  (0x61, 0x7A), (0xB5, 0xB5), (0xDF, 0xF6), (0xF8, 0xFF), (0x3AC, 0x3CE), (0x430, 0x45F)]

/-- The set a property name denotes, if the name is known. -/
def propertySet? (name : String) : Option CharSet :=
  match looseName name with
  | "l" | "letter" | "alphabetic" | "alpha" => some (.table letterRanges)
  | "lu" | "uppercaseletter" | "uppercase" | "upper" => some (.table upperLetters)
  | "ll" | "lowercaseletter" | "lowercase" | "lower" => some (.table lowerLetters)
  | "n" | "number" | "nd" | "decimalnumber" | "digit" => some (.perl .digit)
  | "whitespace" | "wspace" | "space" => some (.perl .space)
  | "any" => some (.range (Char.ofNat 0) (Char.ofNat 0x10FFFF))
  | "ascii" => some (.range (Char.ofNat 0) (Char.ofNat 0x7F))
  | "latin" | "latn" => some (.table (RangeTable.ofPairs [(0x41, 0x5A), (0x61, 0x7A),
      (0xAA, 0xAA), (0xBA, 0xBA), (0xC0, 0xD6), (0xD8, 0xF6), (0xF8, 0x24F), (0x1E00, 0x1EFF),
      (0xFF21, 0xFF3A), (0xFF41, 0xFF5A)]))
  | "greek" | "grek" => some (.table (RangeTable.ofPairs [(0x370, 0x373), (0x375, 0x377),
      (0x37A, 0x37D), (0x37F, 0x37F), (0x384, 0x384), (0x386, 0x386), (0x388, 0x3E1),
      (0x3F0, 0x3FF), (0x1F00, 0x1FFE)]))
  | "cyrillic" | "cyrl" => some (.table (RangeTable.ofPairs [(0x400, 0x52F), (0x1C80, 0x1C88),
      (0x2DE0, 0x2DFF), (0xA640, 0xA69F)]))
  | "han" | "hani" => some (.table (RangeTable.ofPairs [(0x2E80, 0x2FD5), (0x3005, 0x3005),
      (0x3007, 0x3007), (0x3021, 0x3029), (0x3038, 0x303B), (0x3400, 0x4DBF), (0x4E00, 0x9FFF),
      (0xF900, 0xFAD9), (0x20000, 0x323AF)]))
  | "hiragana" | "hira" => some (.table (RangeTable.ofPairs [(0x3041, 0x3096), (0x309D, 0x309F)]))
  | "katakana" | "kana" => some (.table (RangeTable.ofPairs [(0x30A1, 0x30FA), (0x30FD, 0x30FF),
      (0x31F0, 0x31FF), (0xFF66, 0xFF6F), (0xFF71, 0xFF9D)]))
  | "hangul" | "hang" => some (.table (RangeTable.ofPairs [(0x1100, 0x11FF), (0x3131, 0x318E),
      (0xAC00, 0xD7A3)]))
  | "arabic" | "arab" => some (.table (RangeTable.ofPairs [(0x600, 0x604), (0x606, 0x60B),
      (0x60D, 0x61A), (0x61C, 0x61E), (0x620, 0x63F), (0x641, 0x64A), (0x656, 0x66F),
      (0x671, 0x6DC), (0x6DE, 0x6FF)]))
  | "hebrew" | "hebr" => some (.table (RangeTable.ofPairs [(0x591, 0x5C7), (0x5D0, 0x5EA),
      (0x5EF, 0x5F4), (0xFB1D, 0xFB4F)]))
  | _ => none

end Routing.Regex
