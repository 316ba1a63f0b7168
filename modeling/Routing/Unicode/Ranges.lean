/-!
# Code point ranges

A character property is given as a list of inclusive ranges of code points, in increasing order.
Membership is a scan of the list; the tables of this library are short enough for that.
-/

namespace Routing.Unicode

/-- An inclusive range `lo ≤ c ≤ hi` of code points. -/
structure CodeRange where
  lo : Nat
  hi : Nat
deriving Repr, DecidableEq

/-- A character property as a list of ranges. -/
abbrev RangeTable := List CodeRange

/-- Whether the code point `n` lies in one of the ranges. -/
def RangeTable.containsNat (t : RangeTable) (n : Nat) : Bool :=
  t.any fun r => r.lo ≤ n && n ≤ r.hi

/-- Whether the character `c` lies in one of the ranges. -/
def RangeTable.contains (t : RangeTable) (c : Char) : Bool :=
  t.containsNat c.toNat

/-- Builds a table from pairs of bounds. -/
def RangeTable.ofPairs (ps : List (Nat × Nat)) : RangeTable :=
  ps.map fun p => ⟨p.1, p.2⟩

theorem RangeTable.contains_iff (t : RangeTable) (c : Char) :
    t.contains c = true ↔ ∃ r ∈ t, r.lo ≤ c.toNat ∧ c.toNat ≤ r.hi := by
  simp [RangeTable.contains, RangeTable.containsNat]

end Routing.Unicode
