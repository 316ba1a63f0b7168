import Routing.Unicode.Digit
import Routing.Unicode.Space
import Routing.Unicode.Word
import Routing.Unicode.Fold
/-!
# Regex syntax trees

A regex is a tree of characters, character sets, assertions, groups, sequences, alternatives,
counted loops and lookarounds. Capture groups carry their number, counted from 1 in the order of
their opening parentheses. Character sets are built from ranges and named classes by union,
intersection, difference, symmetric difference and complement.
-/

namespace Routing.Regex

open Routing.Unicode

/-- The three classes written with a backslash and a letter. -/
inductive PerlClass where
  | digit
  | word
  | space
deriving Repr, DecidableEq

/-- Whether `c` belongs to a backslash class. -/
def PerlClass.contains : PerlClass → Char → Bool
  | .digit, c => isDecimalDigit c
  | .word, c => isWordChar c
  | .space, c => isWhiteSpace c

/-- The named ASCII classes of bracket expressions, such as `[:alpha:]`. -/
inductive AsciiClass where
  | alnum | alpha | ascii | blank | cntrl | digit | graph | lower | print | punct | space
  | upper | word | xdigit
deriving Repr, DecidableEq

/-- Whether `c` belongs to a named ASCII class. -/
def AsciiClass.contains (k : AsciiClass) (c : Char) : Bool :=
  let n := c.toNat
  let inR (lo hi : Nat) : Bool := lo ≤ n && n ≤ hi
  match k with
  | .alnum => inR 0x30 0x39 || inR 0x41 0x5A || inR 0x61 0x7A
  | .alpha => inR 0x41 0x5A || inR 0x61 0x7A
  | .ascii => n ≤ 0x7F
  | .blank => n == 0x20 || n == 0x09
  | .cntrl => n ≤ 0x1F || n == 0x7F
  | .digit => inR 0x30 0x39
  | .graph => inR 0x21 0x7E
  | .lower => inR 0x61 0x7A
  | .print => inR 0x20 0x7E
  | .punct => inR 0x21 0x2F || inR 0x3A 0x40 || inR 0x5B 0x60 || inR 0x7B 0x7E
  | .space => inR 0x09 0x0D || n == 0x20
  | .upper => inR 0x41 0x5A
  | .word => inR 0x30 0x39 || inR 0x41 0x5A || inR 0x61 0x7A || n == 0x5F
  | .xdigit => inR 0x30 0x39 || inR 0x41 0x46 || inR 0x61 0x66

/-- The class of a name written between `[:` and `:]`. -/
def AsciiClass.ofName? : String → Option AsciiClass
  | "alnum" => some .alnum | "alpha" => some .alpha | "ascii" => some .ascii
  | "blank" => some .blank | "cntrl" => some .cntrl | "digit" => some .digit
  | "graph" => some .graph | "lower" => some .lower | "print" => some .print
  | "punct" => some .punct | "space" => some .space | "upper" => some .upper
  | "word" => some .word | "xdigit" => some .xdigit
  | _ => none

/-- A set of characters. -/
inductive CharSet where
  | empty
  | range (lo hi : Char)
  | perl (k : PerlClass)
  | ascii (k : AsciiClass)
  | table (t : RangeTable)
  | union (a b : CharSet)
  | inter (a b : CharSet)
  | diff (a b : CharSet)
  | symmDiff (a b : CharSet)
  | compl (a : CharSet)
deriving Repr

/-- Membership in a leaf set, compared up to case when `fold` holds. -/
def CharSet.leafContains (fold : Bool) (p : Char → Bool) (c : Char) : Bool :=
  p c || (fold && (caseVariants c).any p)

/-- Membership. When `fold` holds every leaf set is first closed under case variants; unions,
intersections and complements are then taken of the closed sets. -/
def CharSet.contains (fold : Bool) : CharSet → Char → Bool
  | .empty, _ => false
  | .range lo hi, c => leafContains fold (fun d => lo ≤ d && d ≤ hi) c
  | .perl k, c => leafContains fold k.contains c
  | .ascii k, c => leafContains fold k.contains c
  | .table t, c => leafContains fold t.contains c
  | .union a b, c => a.contains fold c || b.contains fold c
  | .inter a b, c => a.contains fold c && b.contains fold c
  | .diff a b, c => a.contains fold c && !b.contains fold c
  | .symmDiff a b, c => a.contains fold c != b.contains fold c
  | .compl a, c => !a.contains fold c

/-- The set of one character. -/
def CharSet.single (c : Char) : CharSet := .range c c

/-- Zero-width tests of the position. -/
inductive Assertion where
  | startText
  | endText
  | startLine
  | endLine
  | wordBoundary
  | notWordBoundary
  /-- A word character follows and none precedes. -/
  | wordStart
  /-- A word character precedes and none follows. -/
  | wordEnd
deriving Repr, DecidableEq

end Routing.Regex

namespace Routing

open Routing.Regex

/-- A regex syntax tree. -/
inductive Regex where
  /-- Matches the empty string. -/
  | empty
  /-- One character, compared up to case when `fold` holds. -/
  | char (c : Char) (fold : Bool)
  /-- Any character; a line feed only when `newline` holds. -/
  | any (newline : Bool)
  /-- One character of a set. -/
  | set (s : CharSet) (fold : Bool)
  | assert (a : Assertion)
  /-- A capture group with its number. -/
  | group (index : Nat) (body : Regex)
  | concat (a b : Regex)
  /-- Tries `a` first, then `b`. -/
  | alt (a b : Regex)
  /-- `body` repeated at least `lo` and at most `hi` times, as many as possible when
  `greedy` holds and as few as possible otherwise. -/
  | loop (body : Regex) (lo : Nat) (hi : Option Nat) (greedy : Bool)
  /-- Commits to the first way `body` matches. -/
  | atomic (body : Regex)
  | lookahead (negated : Bool) (body : Regex)
  /-- Tests `body` against the `width` characters before the position. -/
  | lookbehind (negated : Bool) (width : Nat) (body : Regex)
  /-- The text that group `index` matched, compared up to case when `fold` holds. -/
  | backref (index : Nat) (fold : Bool)
deriving Repr

namespace Regex

/-- The number of characters every match of the regex has, when that number is fixed. -/
def width? : Regex → Option Nat
  | .empty => some 0
  | .char _ _ => some 1
  | .any _ => some 1
  | .set _ _ => some 1
  | .assert _ => some 0
  | .group _ body => body.width?
  | .concat a b => do return (← a.width?) + (← b.width?)
  | .alt a b => do
    let wa ← a.width?
    let wb ← b.width?
    if wa = wb then some wa else none
  | .loop body lo hi _ =>
    match body.width?, hi with
    | some w, some h => if lo = h then some (lo * w) else none
    | _, _ => none
  | .atomic body => body.width?
  | .lookahead _ _ => some 0
  | .lookbehind _ _ _ => some 0
  | .backref _ _ => none

/-- The largest group number used by a back reference, or 0. -/
def maxBackref : Regex → Nat
  | .group _ body => body.maxBackref
  | .concat a b => max a.maxBackref b.maxBackref
  | .alt a b => max a.maxBackref b.maxBackref
  | .loop body _ _ _ => body.maxBackref
  | .atomic body => body.maxBackref
  | .lookahead _ body => body.maxBackref
  | .lookbehind _ _ body => body.maxBackref
  | .backref i _ => i
  | _ => 0

/-- A parsed regex with the number of its capture groups. -/
structure Pattern where
  body : Regex
  groups : Nat
deriving Repr

end Regex

end Routing
