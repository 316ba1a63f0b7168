/-!
# Parameter indexes

A route's parameter index maps each parameter name to its position among the values of a match.
A name that occurs twice refers to its last position.
-/

namespace Routing

/-- The parameter names of a route, in order (`ParamIndex::from_names`). -/
structure ParamIndex where
  names : List String
deriving Repr, DecidableEq, Inhabited

namespace ParamIndex

/-- The position of the last occurrence of `name` (`ParamIndex::get`). -/
def position? (ix : ParamIndex) (name : String) : Option Nat :=
  (ix.names.zipIdx.filter (·.1 == name)).getLast?.map (·.2)

/-- The distinct names, each at the position of its first occurrence. -/
def distinctNames (ix : ParamIndex) : List String :=
  ix.names.foldl (fun acc n => if acc.contains n then acc else acc ++ [n]) []

/-- The number of distinct names. -/
def size (ix : ParamIndex) : Nat := ix.distinctNames.length

/-- Each distinct name with its position. -/
def entries (ix : ParamIndex) : List (String × Nat) :=
  ix.distinctNames.filterMap fun n => (ix.position? n).map (n, ·)

example : ({ names := ["a", "b", "a"] } : ParamIndex).position? "a" = some 2 := by decide

end ParamIndex

end Routing
