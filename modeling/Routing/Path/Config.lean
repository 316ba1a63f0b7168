/-!
# Router configuration

How a router treats paths: whether one trailing slash is ignored, whether runs of slashes count
as one, and whether parameter values are percent-decoded.
-/

namespace Routing

/-- The options of a router. -/
structure Config where
  /-- Drop one trailing `/` of a path longer than `/`. -/
  ignoreTrailingSlash : Bool := false
  /-- Read a run of `/` as one. -/
  ignoreDuplicateSlashes : Bool := false
  /-- Percent-decode the parameter values of a match. -/
  decodeParams : Bool := true
deriving Repr, DecidableEq, Inhabited

end Routing
