import Routing.Path.Config
/-!
# Normalising paths

Templates and request paths are normalised the same way before use: with duplicate slashes
ignored every run of `/` becomes one `/`, and then with trailing slashes ignored one final `/` is
dropped from a path longer than one character. With both options off a path is kept as it is.
-/

namespace Routing

/-- Every run of `/` made one `/`. -/
def collapseSlashes : List Char → List Char
  | [] => []
  | '/' :: '/' :: r => collapseSlashes ('/' :: r)
  | c :: r => c :: collapseSlashes r

/-- One final `/` dropped from a text longer than one character. -/
def dropTrailingSlash (cs : List Char) : List Char :=
  if cs.length > 1 ∧ cs.getLast? = some '/' then cs.dropLast else cs

/-- Normalises a path under a configuration (`normalize_path`). -/
def Config.normalize (cfg : Config) (path : String) : String :=
  let cs := path.toList
  let cs := if cfg.ignoreDuplicateSlashes then collapseSlashes cs else cs
  let cs := if cfg.ignoreTrailingSlash then dropTrailingSlash cs else cs
  String.ofList cs

example : ({ ignoreTrailingSlash := true, ignoreDuplicateSlashes := true } : Config).normalize "//a//b/" = "/a/b" := by
  decide +kernel

end Routing
