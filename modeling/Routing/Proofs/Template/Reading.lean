import Routing.Template.PathValues
import Routing.Trie.RootPath
/-!
# Reading a path along root path steps

A root path reads a request path from left to right, step by step, as the tokens of a route do:
a character step reads its character, a parameter step reads the longest run without `/` and
gives the values its regex text gives the run, and the wildcard step reads the rest of the path
as one value. `readSteps` reads steps off the front of a path and answers the values and what is
left, so reading is compositional (`readSteps_append`); a route reads a path exactly when its
root path reads all of it (`pathValues?_eq_some`).
-/

namespace Routing

variable [Regex.Engine]

/-- Reads one step off the front of a path: the values it gives and the path left. -/
def PathStep.read : PathStep → List Char → Option (List String × List Char)
  | .char c, d :: cs => if c = d then some ([], cs) else none
  | .char _, [] => none
  | .param signature, cs =>
    (segmentValues? signature (String.ofList (cs.takeWhile (· != '/')))).map
      fun vs => (vs, cs.dropWhile (· != '/'))
  | .wildcard, cs => some ([String.ofList cs], [])

/-- Reads steps off the front of a path: the values they give, in order, and the path left. -/
def readSteps : List PathStep → List Char → Option (List String × List Char)
  | [], cs => some ([], cs)
  | s :: ss, cs =>
    (s.read cs).bind fun (vs, cs) => (readSteps ss cs).map fun (ws, cs) => (vs ++ ws, cs)

/-- The values steps read from the whole of a path. -/
def readsWhole? (steps : List PathStep) (cs : List Char) : Option (List String) :=
  match readSteps steps cs with
  | some (vs, []) => some vs
  | _ => none

theorem readsWhole?_eq_some {steps : List PathStep} {cs : List Char} {vs : List String} :
    readsWhole? steps cs = some vs ↔ readSteps steps cs = some (vs, []) := by
  unfold readsWhole?
  split <;> simp_all

/-- Reading `s₁ ++ s₂` reads `s₁`, then `s₂` from where `s₁` stopped. -/
theorem readSteps_append (s₁ s₂ : List PathStep) (cs : List Char) :
    readSteps (s₁ ++ s₂) cs = (readSteps s₁ cs).bind fun (vs, r) =>
      (readSteps s₂ r).map fun (ws, r') => (vs ++ ws, r') := by
  induction s₁ generalizing cs with
  | nil => simp [readSteps]
  | cons s ss ih =>
    simp only [List.cons_append, readSteps, ih]
    cases s.read cs with
    | none => rfl
    | some p =>
      obtain ⟨vs, r⟩ := p
      simp only [Option.bind_some]
      cases readSteps ss r <;> simp [Option.map_map, Function.comp_def]

/-- Character steps read exactly their characters. -/
theorem readSteps_chars (s cs : List Char) :
    readSteps (s.map .char) cs = if s.isPrefixOf cs then some ([], cs.drop s.length) else none := by
  induction s generalizing cs with
  | nil => simp [readSteps]
  | cons a s ih =>
    cases cs with
    | nil => simp [readSteps, PathStep.read]
    | cons d cs =>
      by_cases had : a = d
      · subst had
        simp [readSteps, PathStep.read, ih]
      · simp [readSteps, PathStep.read, had, List.isPrefixOf]

theorem readsWhole?_cons (s : PathStep) (ss : List PathStep) (cs : List Char) :
    readsWhole? (s :: ss) cs = (s.read cs).bind fun (vs, r) => (readsWhole? ss r).map (vs ++ ·) := by
  unfold readsWhole?
  simp only [readSteps]
  cases s.read cs with
  | none => rfl
  | some p =>
    obtain ⟨vs, r⟩ := p
    simp only [Option.bind_some]
    cases readSteps ss r with
    | none => rfl
    | some q =>
      obtain ⟨ws, r'⟩ := q
      cases r' <;> rfl

theorem readsWhole?_chars_append (s : List Char) (ss : List PathStep) (cs : List Char) :
    readsWhole? (s.map .char ++ ss) cs =
      if s.isPrefixOf cs then readsWhole? ss (cs.drop s.length) else none := by
  unfold readsWhole?
  rw [readSteps_append, readSteps_chars]
  by_cases h : s.isPrefixOf cs
  · simp only [h, if_true, Option.bind_some, List.nil_append]
    cases readSteps ss (cs.drop s.length) with
    | none => rfl
    | some q => obtain ⟨ws, r⟩ := q; rfl
  · simp [h]

/-- The tokens of a route read a path as their root path does. The induction follows the
tokens; a text token is its characters, one step each. -/
theorem tokensRead?_eq (toks : List Token) (cs : List Char) :
    tokensRead? toks cs = readsWhole? (toks.flatMap Token.rootPath) cs := by
  induction toks generalizing cs with
  | nil => cases cs <;> rfl
  | cons tok toks ih =>
    cases tok with
    | text s =>
      simp only [tokensRead?, List.flatMap_cons, Token.rootPath, readsWhole?_chars_append, ih,
        String.length_toList]
    | param p =>
      simp only [tokensRead?, List.flatMap_cons, Token.rootPath, List.singleton_append,
        readsWhole?_cons, PathStep.read, ParamSpan.valuesOf?, ih]
      cases segmentValues? p.regex (String.ofList (cs.takeWhile (· != '/'))) <;> rfl
    | wildcard =>
      simp only [tokensRead?, List.flatMap_cons, Token.rootPath, List.singleton_append,
        readsWhole?_cons, PathStep.read, ih]
      rfl

/-- A route reads a path exactly when the path starts with `/` and the route's root path reads
all of the rest. -/
theorem pathValues?_eq_some {r : Route} {path : String} {vs : List String} :
    r.pathValues? path = some vs ↔
      ∃ rest, path.toList = '/' :: rest ∧ readSteps r.rootPath rest = some (vs, []) := by
  unfold Route.pathValues?
  split
  · rename_i rest h
    rw [tokensRead?_eq, readsWhole?_eq_some]
    exact ⟨fun hr => ⟨rest, h, hr⟩, fun ⟨rest', h', hr⟩ => by
      rw [h] at h'
      cases h'
      exact hr⟩
  · rename_i h
    simp only [reduceCtorEq, false_iff, not_exists, not_and]
    intro rest hrest
    exact absurd hrest (h rest)

end Routing
