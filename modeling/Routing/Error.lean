/-!
# Route errors

The reasons a route template is refused, and their messages. Each carries the template it
refers to, after normalisation.
-/

namespace Routing

/-- Why a route template is refused. -/
inductive RouteError where
  /-- The template is the empty string. -/
  | empty
  /-- The template starts with neither `/` nor `*`. -/
  | invalidStart (pattern : String)
  /-- A `{` of a constraint has no closing `}`. -/
  | unbalancedConstraint (pattern : String)
  /-- A `*` stands somewhere other than at the end. -/
  | wildcardNotLast (pattern : String)
  /-- An optional parameter `/:name?` is followed by more of the template. -/
  | optionalNotLast (pattern : String)
  /-- A constraint does not form a valid regex. -/
  | invalidConstraint (pattern : String)
deriving Repr, DecidableEq

/-- The message of an error. -/
def RouteError.message : RouteError → String
  | .empty => "route pattern is empty"
  | .invalidStart p => "route pattern must start with '/' or '*': " ++ p
  | .unbalancedConstraint p => "unbalanced regex constraint brackets in \"" ++ p ++ "\""
  | .wildcardNotLast p => "wildcard '*' must be the last character of the route: " ++ p
  | .optionalNotLast p => "optional parameter must be the last segment of the route: " ++ p
  | .invalidConstraint p => "invalid regex constraint in \"" ++ p ++ "\""

/-- The name of the kind of error. -/
def RouteError.kind : RouteError → String
  | .empty => "Empty"
  | .invalidStart _ => "InvalidStart"
  | .unbalancedConstraint _ => "UnbalancedConstraint"
  | .wildcardNotLast _ => "WildcardNotLast"
  | .optionalNotLast _ => "OptionalNotLast"
  | .invalidConstraint _ => "InvalidConstraint"

/-- A successful bind is a successful first computation and a successful rest. -/
theorem Except.bind_eq_ok {ε β γ : Type} {x : Except ε β} {g : β → Except ε γ} {c : γ} :
    x >>= g = .ok c ↔ ∃ b, x = .ok b ∧ g b = .ok c := by
  cases x <;> simp [bind, Except.bind]

end Routing
