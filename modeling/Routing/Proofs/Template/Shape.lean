import Mathlib.Data.List.Chain
import Routing.Template.Compile
import Routing.Trie.RootPath
/-!
# The shape of a route

The template reader gives routes of one shape. A parameter span runs to the next `/`, `*` or the
end, so after a span comes the wildcard or literal text that starts with `/`; the wildcard ends a
template; and literal text is flushed only when it is not empty. `TokensShaped` says this of a
token list, and `ofTemplate_shaped` proves it of every template the reader accepts, by an
invariant of the reader's loop (`Reading`).

In root-path terms (`PathStep.Admits`): no step follows the wildcard, and after a parameter step
comes the character `/` or the wildcard (`TokensShaped.rootPath_isChain`). This is what keeps
the trie's wildcard nodes childless and its parameter nodes free of parameter children.
-/

namespace Routing

/-! ## What follows a parameter span -/

/-- What may follow a parameter span in a template: the end, a `/` or a `*`. -/
def AfterSpan (rest : List Char) : Prop :=
  rest.head? = none ∨ rest.head? = some '/' ∨ rest.head? = some '*'

theorem spanLiteral_rest (cs : List Char) :
    AfterSpan (spanLiteral cs).2 ∨ (spanLiteral cs).2.head? = some ':' := by
  fun_induction spanLiteral cs with
  | case1 => exact .inl (.inl rfl)
  | case2 r l rest hsl ih => rwa [hsl] at ih
  | case3 c r _ hc =>
    rcases hc with rfl | rfl | rfl
    · exact .inl (.inr (.inl rfl))
    · exact .inl (.inr (.inr rfl))
    · exact .inr rfl
  | case4 c r _ _ l rest hsl ih => rwa [hsl] at ih

/-- A span's parameters are read up to the end, a `/` or a `*`. -/
theorem readSpan_rest (pattern : String) : ∀ (cs : List Char) (st st' : SpanRegex) (lit rest : List Char),
    readSpan pattern cs st = .ok (st', lit, rest) → AfterSpan rest := by
  intro cs
  induction hn : cs.length using Nat.strongRecOn generalizing cs with
  | _ n ih =>
    intro st st' lit rest h
    rw [readSpan] at h
    obtain ⟨⟨st₁, afterGroup⟩, -, h⟩ := Except.bind_eq_ok.1 h
    have hsl := spanLiteral_rest afterGroup
    dsimp only at h
    generalize spanLiteral afterGroup = sl at h hsl
    obtain ⟨l, rest'⟩ := sl
    dsimp only at h hsl
    split at h
    · -- a single `:` chains the next parameter of the span
      rename_i more
      split at h
      · exact ih more.length (by omega) more rfl _ _ _ _ h
      · cases h
    · rename_i hne
      cases h
      rcases hsl with hsl | hsl
      · exact hsl
      · cases rest with
        | nil => cases hsl
        | cons c more =>
          cases hsl
          exact absurd rfl (hne more)

theorem readParamSpan_rest {pattern : String} {cs : List Char} {span : ParamSpan}
    {names : List String} {rest : List Char}
    (h : readParamSpan pattern cs = .ok (span, names, rest)) : AfterSpan rest := by
  unfold readParamSpan at h
  obtain ⟨⟨st, lit, rest'⟩, hread, h⟩ := Except.bind_eq_ok.1 h
  cases h
  exact readSpan_rest pattern cs _ st lit rest hread
/-! ## The reader's loop -/

/-- `b` may follow `a` in a route read from a template: anything follows literal text, after a
parameter span comes the wildcard or literal text from a `/`, and nothing follows the wildcard. -/
def Token.Admits : Token → Token → Prop
  | .text _, _ => True
  | .param _, .text s => s.toList.head? = some '/'
  | .param _, .wildcard => True
  | .param _, .param _ => False
  | .wildcard, _ => False

/-- A token list of the shape the template reader gives: no literal text is empty, and each
token admits the next. -/
structure TokensShaped (l : List Token) : Prop where
  text_ne : ∀ s, Token.text s ∈ l → s.toList ≠ []
  chain : l.IsChain Token.Admits

theorem TokensShaped.append_singleton {l : List Token} {tok : Token} (h : TokensShaped l)
    (hlast : ∀ x ∈ l.getLast?, Token.Admits x tok) (htext : ∀ s, tok = .text s → s.toList ≠ []) :
    TokensShaped (l ++ [tok]) where
  text_ne s hs := by
    rcases List.mem_append.1 hs with hs | hs
    · exact h.text_ne s hs
    · exact htext s (List.mem_singleton.1 hs).symm
  chain := h.chain.append (.singleton tok) (by simpa using hlast)

/-- What holds between two steps of the reader: the tokens read are shaped and end in no
wildcard, and the literal text being read may follow them: after a span it starts with `/`, or
it is still empty and the template goes on with its end, a `/` or a `*`. -/
structure Reading (cs lit : List Char) (acc : List Token) : Prop where
  shaped : TokensShaped acc
  no_wildcard : acc.getLast? ≠ some .wildcard
  after_param : ∀ p, acc.getLast? = some (.param p) →
    lit.head? = some '/' ∨ lit = [] ∧ AfterSpan cs

theorem Reading.flushed {cs lit : List Char} {acc : List Token} (h : Reading cs lit acc) :
    TokensShaped (flushText lit acc) ∧ (flushText lit acc).getLast? ≠ some .wildcard ∧
      ∀ p, (flushText lit acc).getLast? = some (.param p) → lit = [] ∧ AfterSpan cs := by
  unfold flushText
  split_ifs with hlit
  · have hnil : lit = [] := List.isEmpty_iff.1 hlit
    subst hnil
    refine ⟨h.shaped, h.no_wildcard, fun p hp => ?_⟩
    rcases h.after_param p hp with hh | hh
    · cases hh
    · exact hh
  · have hne : lit ≠ [] := fun e => hlit (List.isEmpty_iff.2 e)
    refine ⟨h.shaped.append_singleton ?_ ?_, by simp, by simp⟩
    · intro x hx
      cases x with
      | text _ => trivial
      | param p =>
        rcases h.after_param p hx with hh | ⟨hh, -⟩
        · simpa [Token.Admits, String.toList_ofList] using hh
        · exact absurd hh hne
      | wildcard => exact absurd hx h.no_wildcard
    · intro s hs
      cases hs
      simpa [String.toList_ofList] using hne

theorem readTokens_shaped (pattern : String) (cs lit : List Char) (acc : List Token)
    (names : List String) :
    Reading cs lit acc → ∀ r, readTokens pattern cs lit acc names = .ok r → TokensShaped r.tokens := by
  fun_induction readTokens pattern cs lit acc names with
  | case1 lit acc names =>
    intro h r hr
    cases hr
    exact h.flushed.1
  | case2 lit acc names r ih =>
    intro h
    refine ih ⟨h.shaped, h.no_wildcard, fun p hp => ?_⟩
    rcases h.after_param p hp with hh | ⟨rfl, hh⟩
    · left
      cases lit with
      | nil => cases hh
      | cons c l => simpa using hh
    · simp [AfterSpan] at hh
  | case3 lit acc names r hne ih =>
    intro h res hres
    obtain ⟨⟨span, spanNames, rest⟩, hspan, hres⟩ := Except.bind_eq_ok.1 hres
    dsimp only at hres
    split at hres
    · rename_i hlen
      refine ih span spanNames rest hlen ?_ res hres
      obtain ⟨hshaped, hnw, hpar⟩ := h.flushed
      refine ⟨hshaped.append_singleton ?_ (fun s hs => by cases hs), by simp, ?_⟩
      · intro x hx
        cases x with
        | text _ => trivial
        | param p =>
          obtain ⟨-, hp⟩ := hpar p hx
          simp [AfterSpan] at hp
        | wildcard => exact absurd hx hnw
      · intro p hp
        simp only [List.getLast?_append, List.getLast?_singleton, Option.some_or, Option.some.injEq,
          Token.param.injEq] at hp
        exact .inr ⟨rfl, readParamSpan_rest hspan⟩
    · cases hres
  | case4 lit acc names r hr =>
    intro h res hres
    cases hres
    obtain ⟨hshaped, hnw, -⟩ := h.flushed
    refine hshaped.append_singleton ?_ (fun s hs => by cases hs)
    intro x hx
    cases x with
    | text _ => trivial
    | param _ => trivial
    | wildcard => exact absurd hx hnw
  | case5 lit acc names r hr =>
    intro _ res hres
    cases hres
  | case6 lit acc names c r hcc hc hs ih =>
    intro h
    refine ih ⟨h.shaped, h.no_wildcard, fun p hp => ?_⟩
    rcases h.after_param p hp with hh | ⟨rfl, hh⟩
    · left
      cases lit with
      | nil => cases hh
      | cons c l => simpa using hh
    · left
      rcases hh with hh | hh | hh
      · cases hh
      · simpa using hh
      · exact absurd (by simpa using hh) hs

/-! ## Templates and root paths -/

theorem TokensShaped.nil : TokensShaped [] := ⟨fun _ h => absurd h List.not_mem_nil, .nil⟩

/-- Every template the reader accepts gives a shaped route. -/
theorem ofTemplate_shaped {pattern : String} {r : Route} (h : Route.ofTemplate pattern = .ok r) :
    TokensShaped r.tokens :=
  readTokens_shaped pattern _ [] [] [] ⟨.nil, by simp, fun _ hp => by cases hp⟩ r h

/-- A template that compiles to a route is read by the route reader. -/
theorem compile_route {pattern : String} {r : Route} (h : Template.compile pattern = .ok (.route r)) :
    Route.ofTemplate pattern = .ok r := by
  unfold Template.compile at h
  split at h
  · cases h
  · split_ifs at h
    obtain ⟨o, -, h⟩ := Except.bind_eq_ok.1 h
    split at h
    · cases h
    · cases hr : Route.ofTemplate pattern with
      | error e => rw [hr] at h; cases h
      | ok r' => rw [hr] at h; cases h; rfl

/-- `b` may follow `a` in the root path of a route read from a template. -/
def PathStep.Admits : PathStep → PathStep → Prop
  | .char _, _ => True
  | .param _, .char c => c = '/'
  | .param _, .wildcard => True
  | .param _, .param _ => False
  | .wildcard, _ => False

theorem isChain_chars_append (cs : List Char) (l : List PathStep) :
    (cs.map PathStep.char ++ l).IsChain PathStep.Admits ↔ l.IsChain PathStep.Admits := by
  induction cs with
  | nil => rfl
  | cons c cs ih =>
    rw [List.map_cons, List.cons_append, List.isChain_cons, ih]
    simp [PathStep.Admits]

/-- The root path of a shaped route is shaped. -/
theorem TokensShaped.rootPath_isChain {l : List Token} (h : TokensShaped l) :
    (l.flatMap Token.rootPath).IsChain PathStep.Admits := by
  induction l with
  | nil => exact .nil
  | cons tok rest ih =>
    have hrest : TokensShaped rest :=
      ⟨fun s hs => h.text_ne s (List.mem_cons_of_mem _ hs), h.chain.tail⟩
    have hhead : ∀ y ∈ rest.head?, Token.Admits tok y := (List.isChain_cons.1 h.chain).1
    rw [List.flatMap_cons]
    cases tok with
    | text s => rw [Token.rootPath, isChain_chars_append]; exact ih hrest
    | wildcard =>
      -- nothing follows the wildcard
      cases rest with
      | nil => exact .singleton _
      | cons tok' _ => exact absurd (hhead tok' rfl) (by simp [Token.Admits])
    | param p =>
      rw [Token.rootPath, List.singleton_append, List.isChain_cons]
      refine ⟨?_, ih hrest⟩
      intro y hy
      cases rest with
      | nil => simp at hy
      | cons tok' rest' =>
        have hadm := hhead tok' rfl
        cases tok' with
        | text s =>
          have hs := h.text_ne s (by simp)
          obtain ⟨c, cs, hcs⟩ := List.exists_cons_of_ne_nil hs
          simp only [Token.Admits, hcs, List.head?_cons, Option.some.injEq] at hadm
          subst hadm
          simp [Token.rootPath, hcs] at hy
          subst hy
          rfl
        | param _ => exact absurd hadm (by simp [Token.Admits])
        | wildcard =>
          simp [Token.rootPath] at hy
          subst hy
          trivial

end Routing
