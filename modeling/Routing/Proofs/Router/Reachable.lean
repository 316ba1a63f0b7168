import Routing.Proofs.Trie.Registry
import Routing.Proofs.Template.Shape
import Routing.Router.Basic
/-!
# Routers reachable by additions

A router is used by adding templates to `Router.new c` and then looking paths up. The routers
that can be met are those reachable by additions, successful or refused (`Router.Reachable`): a
refused addition of an optional template keeps what its first variant added.

What an addition does is said once: it is a run of insertions (`Router.Inserts`), each of one
route read from a template, inserted into the trie and recorded as a literal route when it has no
parameters (`addWithin_inserts`); a refusal ends the run. Every fact about reachable routers
follows from one step of such a run: the configuration stays (`Inserts.config`), and the trie is
built by the insertions of the run (`Inserts.builtBy`, `Reachable.builtBy`).

A refused addition of a template that is not optional leaves the router as it was
(`refused_addition_keeps_router_unless_optional`); an optional one may keep its present variant.

What an addition inserts, and whether it succeeds, depends on the configuration, the method, the
template and the value alone (`Router.insertions`, `addWithin_insertions`). Registering a list
(`Router.addAll`) inserts the concatenation of what each registration inserts
(`Router.registrationLog`, `addAll_inserts`), so the trie it leaves of `Router.new c` is built by
that log (`builtBy_addAll_new`).
-/

namespace Routing

namespace Router

variable {α : Type}

/-- The routers reachable from `Router.new c` by additions: the router an addition leaves is
reachable whether the addition succeeded or was refused. -/
inductive Reachable (c : Config) : Router α → Prop
  | new : Reachable c (Router.new c)
  | add {r : Router α} (method pattern : String) (value : α) :
      Reachable c r → Reachable c (r.add method pattern value).1

/-- The router once a route is in its trie, the route's node recorded as a literal route when the
route has no parameters. -/
def withRoute (r : Router α) (trie : Trie α) (route : Route) (node : NodeId) : Router α :=
  match route.literalPath with
  | some path => { r with trie }.recordLiteral path node
  | none => { r with trie }

@[simp] theorem withRoute_trie (r : Router α) (trie : Trie α) (route : Route) (node : NodeId) :
    (r.withRoute trie route node).trie = trie := by
  unfold withRoute recordLiteral
  split <;> rfl

@[simp] theorem withRoute_config (r : Router α) (trie : Trie α) (route : Route) (node : NodeId) :
    (r.withRoute trie route node).config = r.config := by
  unfold withRoute recordLiteral
  split <;> rfl

/-- Runs of insertions into a router: each inserts the route read from its template into the trie
and records it as a literal route when it has no parameters. -/
inductive Inserts : Router α → List (Insertion α) → Router α → Prop
  | nil (r : Router α) : Inserts r [] r
  | cons {r r' : Router α} {e : Insertion α} {es : List (Insertion α)} {trie : Trie α}
      {node : NodeId} :
      Route.ofTemplate e.pattern = .ok e.route →
      r.trie.insert e.method e.pattern e.route e.value = .ok (trie, node) →
      Inserts (r.withRoute trie e.route node) es r' → Inserts r (e :: es) r'

namespace Inserts

variable {r r' r'' : Router α} {es es' : List (Insertion α)}

theorem append (h₁ : Inserts r es r') (h₂ : Inserts r' es' r'') : Inserts r (es ++ es') r'' := by
  induction h₁ with
  | nil => exact h₂
  | cons hs hins _ ih => exact .cons hs hins (ih h₂)

theorem config (h : Inserts r es r') : r'.config = r.config := by
  induction h with
  | nil => rfl
  | cons _ _ _ ih => rw [ih, withRoute_config]

/-- Every route of a run is read from its template. -/
theorem ofTemplate (h : Inserts r es r') : ∀ e ∈ es, Route.ofTemplate e.pattern = .ok e.route := by
  induction h with
  | nil => simp
  | cons hs _ _ ih =>
    intro e he
    rcases List.mem_cons.1 he with rfl | he
    · exact hs
    · exact ih e he

theorem shaped (h : Inserts r es r') : ∀ e ∈ es, TokensShaped e.route.tokens :=
  fun e he => ofTemplate_shaped (h.ofTemplate e he)

/-- The trie at the end of a run is built by the insertions of the run, after those that built
the trie at its start. -/
theorem builtBy (h : Inserts r es r') {L : List (Insertion α)} (hL : r.trie.BuiltBy L) :
    r'.trie.BuiltBy (L ++ es) := by
  induction h generalizing L with
  | nil => simpa using hL
  | @cons r _ e es trie node _ hins _ ih =>
    have := ih (L := L ++ [e]) (by simpa using Trie.BuiltBy.insert hL hins)
    simpa using this

end Inserts

/-- An addition is a run of insertions: an optional template adds its two variants one after the
other, and a refusal ends the run with what was inserted before it. -/
theorem addWithin_inserts (method : String) (value : α) :
    ∀ (fuel : Nat) (r : Router α) (pattern : String),
      ∃ es, Inserts r es (r.addWithin method pattern value fuel).1 := by
  intro fuel
  induction fuel with
  | zero => exact fun r _ => ⟨[], .nil r⟩
  | succ fuel ih =>
    intro r pattern
    rw [addWithin]
    split
    · exact ⟨[], .nil r⟩
    · -- an optional template: the present variant, then the absent one if that succeeded
      rename_i present absent _
      obtain ⟨es₁, hes₁⟩ := ih r present
      rcases hpresent : r.addWithin method present value fuel with ⟨r₁, _ | ⟨⟩⟩
      · exact ⟨es₁, by simpa [hpresent] using hes₁⟩
      · obtain ⟨es₂, hes₂⟩ := ih r₁ absent
        rw [hpresent] at hes₁
        exact ⟨es₁ ++ es₂, hes₁.append hes₂⟩
    · rename_i route htpl
      split
      · exact ⟨[], .nil r⟩
      · rename_i trie node hins
        exact ⟨[⟨method, r.config.normalize pattern, route, value⟩],
          .cons (compile_route htpl) hins (.nil (r.withRoute trie route node))⟩

/-- A refused addition of a template that is not optional leaves the router as it was: a
template that does not compile changes nothing, and the trie reads every regex of a route before
it changes. Only an optional template, added as two variants one after the other, can be refused
after its present variant was added. -/
theorem refused_addition_keeps_router_unless_optional (r : Router α) (method pattern : String)
    (value : α) {e : RouteError} (h : (r.add method pattern value).2 = .error e) :
    (r.add method pattern value).1 = r ∨ ∃ present absent,
      Template.compile (r.config.normalize pattern) = .ok (.optional present absent) := by
  unfold add at h ⊢
  rw [addWithin] at h ⊢
  dsimp only at h ⊢
  cases htpl : Template.compile (r.config.normalize pattern) with
  | error err => exact .inl rfl
  | ok tpl =>
    cases tpl with
    | optional present absent => exact .inr ⟨present, absent, rfl⟩
    | route route =>
      simp only [htpl] at h ⊢
      cases hins : r.trie.insert method (r.config.normalize pattern) route value with
      | error err => exact .inl rfl
      | ok res =>
        -- the trie took the route: the addition succeeded
        rw [hins] at h
        cases h

/-- The optional template `/y:a{x|/:b\{}?` stands for `/y:a{x|/:b\{}`, which is added, and
`/y:a{x|`, whose brace is unbalanced: the addition is refused and keeps the first variant. -/
theorem optional_refusal_keeps_present_variant :
    let r : Router Nat := Router.new {}
    let added := r.add "GET" "/y:a\x7bx|/:b\\\x7b\x7d?" 0
    added.2 = .error (.unbalancedConstraint "/y:a\x7bx|") ∧ r.trie.nodes.size = 1 ∧
      added.1.trie.nodes.size = 3 ∧
      (added.1 = r ∨ ∃ present absent, Template.compile (r.config.normalize
        "/y:a\x7bx|/:b\\\x7b\x7d?") = .ok (.optional present absent)) := by
  intro r added
  have h : added.2 = .error (.unbalancedConstraint "/y:a\x7bx|") := by decide +kernel
  exact ⟨h, rfl, by decide +kernel, refused_addition_keeps_router_unless_optional r "GET" _ 0 h⟩

/-- Every reachable router is reached from the router with no routes by one run of insertions. -/
theorem Reachable.inserts {c : Config} {r : Router α} (h : Reachable c r) :
    ∃ L, Inserts (Router.new c) L r := by
  induction h with
  | new => exact ⟨[], .nil _⟩
  | add method pattern value _ ih =>
    obtain ⟨L, hL⟩ := ih
    obtain ⟨es, hes⟩ := addWithin_inserts method value _ _ pattern
    exact ⟨L ++ es, hL.append hes⟩

/-- The trie of a reachable router is built by insertions of routes read from templates. -/
theorem Reachable.builtBy {c : Config} {r : Router α} (h : Reachable c r) :
    ∃ L, r.trie.BuiltBy L ∧ ∀ e ∈ L, TokensShaped e.route.tokens := by
  obtain ⟨L, hL⟩ := h.inserts
  exact ⟨L, by simpa using hL.builtBy (L := []) .empty, hL.shaped⟩

/-- The trie of a reachable router is built by a log of insertions, each of the route its template
reads. -/
theorem Reachable.builtBy_templates {c : Config} {r : Router α} (h : Reachable c r) :
    ∃ L, r.trie.BuiltBy L ∧ ∀ e ∈ L, Route.ofTemplate e.pattern = .ok e.route := by
  obtain ⟨L, hL⟩ := h.inserts
  exact ⟨L, by simpa using hL.builtBy (L := []) .empty, hL.ofTemplate⟩

theorem Reachable.config {c : Config} {r : Router α} (h : Reachable c r) : r.config = c := by
  obtain ⟨L, hL⟩ := h.inserts
  exact hL.config

/-! ## Registering a list -/

/-- The insertions an addition makes under the configuration `c`, and whether it succeeds: an
optional template makes those of its present variant and, when that succeeds, those of its
absent one; a route makes its one insertion when its regexes read. -/
def insertionsWithin (c : Config) (method pattern : String) (value : α) :
    Nat → List (Insertion α) × Bool
  | 0 => ([], true)
  | fuel + 1 =>
    let p := c.normalize pattern
    match Template.compile p with
    | .error _ => ([], false)
    | .ok (.optional present absent) =>
      match insertionsWithin c method present value fuel with
      | (es, true) =>
        let absentResult := insertionsWithin c method absent value fuel
        (es ++ absentResult.1, absentResult.2)
      | (es, false) => (es, false)
    | .ok (.route route) =>
      match Trie.readyTokens p route.tokens with
      | .error _ => ([], false)
      | .ok _ => ([⟨method, p, route, value⟩], true)

/-- The insertions `Router.add` makes under the configuration `c`, and whether it succeeds. -/
def insertions (c : Config) (method pattern : String) (value : α) : List (Insertion α) × Bool :=
  insertionsWithin c method pattern value (pattern.length + 1)

/-- Adds registrations in order, whatever each addition answers: the router at the end, and
whether every addition succeeded. -/
def addAll (r : Router α) : List (String × String × α) → Router α × Bool
  | [] => (r, true)
  | (method, pattern, value) :: regs =>
    let added := r.add method pattern value
    let rest := added.1.addAll regs
    (rest.1, added.2.toBool && rest.2)

/-- The insertions a list of registrations makes under the configuration `c`. -/
def registrationLog (c : Config) (regs : List (String × String × α)) : List (Insertion α) :=
  regs.flatMap fun reg => (insertions c reg.1 reg.2.1 reg.2.2).1

theorem insert_of_readyTokens_error {t : Trie α} {method pattern : String} {route : Route}
    {value : α} {e : RouteError} (h : Trie.readyTokens pattern route.tokens = .error e) :
    t.insert method pattern route value = .error e := by
  simp [Trie.insert, h, bind, Except.bind]

theorem insert_of_readyTokens_ok (t : Trie α) (method : String) (value : α) {pattern : String}
    {route : Route} {ready : List ReadyToken} (h : Trie.readyTokens pattern route.tokens = .ok ready) :
    ∃ trie node, t.insert method pattern route value = .ok (trie, node) := by
  simp [Trie.insert, h, bind, Except.bind, pure, Except.pure]

/-- An addition inserts what `insertionsWithin` says, whatever the router it is made to, and it
succeeds exactly when `insertionsWithin` says so. -/
theorem addWithin_insertions (method : String) (value : α) :
    ∀ (fuel : Nat) (r : Router α) (pattern : String),
      Inserts r (insertionsWithin r.config method pattern value fuel).1
          (r.addWithin method pattern value fuel).1 ∧
        (r.addWithin method pattern value fuel).2.toBool =
          (insertionsWithin r.config method pattern value fuel).2 := by
  intro fuel
  induction fuel with
  | zero => exact fun r _ => ⟨.nil r, rfl⟩
  | succ fuel ih =>
    intro r pattern
    rw [addWithin, insertionsWithin]
    cases htpl : Template.compile (r.config.normalize pattern) with
    | error e => exact ⟨.nil r, rfl⟩
    | ok tpl =>
      cases tpl with
      | optional present absent =>
        -- the present variant, then the absent one if that succeeded
        obtain ⟨hes₁, hok₁⟩ := ih r present
        rcases hpresent : r.addWithin method present value fuel with ⟨r₁, res₁⟩
        rcases hins₁ : insertionsWithin r.config method present value fuel with ⟨es₁, ok₁⟩
        rw [hpresent, hins₁] at hes₁ hok₁
        subst hok₁
        cases res₁ with
        | error e =>
          dsimp only
          rw [hpresent, hins₁]
          exact ⟨hes₁, rfl⟩
        | ok u =>
          have hconfig : r₁.config = r.config := hes₁.config
          obtain ⟨hes₂, hok₂⟩ := ih r₁ absent
          rw [hconfig] at hes₂ hok₂
          dsimp only
          rw [hpresent, hins₁]
          exact ⟨hes₁.append hes₂, hok₂⟩
      | route route =>
        -- one insertion, made when the route's regexes read
        cases hready : Trie.readyTokens (r.config.normalize pattern) route.tokens with
        | error e =>
          simp only [insert_of_readyTokens_error hready, hready]
          exact ⟨.nil r, rfl⟩
        | ok ready =>
          obtain ⟨trie, node, hins⟩ := insert_of_readyTokens_ok r.trie method value hready
          simp only [hins, hready]
          exact ⟨.cons (compile_route htpl) hins (.nil (r.withRoute trie route node)), rfl⟩

/-- Registering a list inserts the concatenation of what each registration inserts, and
succeeds exactly when each does. -/
theorem addAll_inserts :
    ∀ (regs : List (String × String × α)) (r : Router α),
      Inserts r (registrationLog r.config regs) (r.addAll regs).1 ∧
        (r.addAll regs).2 = regs.all fun reg => (insertions r.config reg.1 reg.2.1 reg.2.2).2 := by
  intro regs
  induction regs with
  | nil => exact fun r => ⟨.nil r, rfl⟩
  | cons reg regs ih =>
    intro r
    obtain ⟨method, pattern, value⟩ := reg
    obtain ⟨hes, hok⟩ := addWithin_insertions method value (pattern.length + 1) r pattern
    have hconfig := hes.config
    obtain ⟨hes', hok'⟩ := ih (r.add method pattern value).1
    rw [Router.add] at hes' hok'
    rw [hconfig] at hes' hok'
    refine ⟨hes.append hes', ?_⟩
    simp only [addAll, add, hok, hok', List.all_cons, insertions]

/-- Registering a list from a reachable router reaches a router, whatever each addition
answers. -/
theorem Reachable.addAll {c : Config} {r : Router α} (h : Reachable c r) :
    ∀ regs : List (String × String × α), Reachable c (r.addAll regs).1
  | [] => h
  | (method, pattern, value) :: regs => (h.add method pattern value).addAll regs

/-- The trie registering a list leaves of `Router.new c` is built by the list's log. -/
theorem builtBy_addAll_new (c : Config) (regs : List (String × String × α)) :
    ((Router.new c).addAll regs).1.trie.BuiltBy (registrationLog c regs) := by
  have hins := (addAll_inserts regs (Router.new c)).1.builtBy .empty
  rw [show (Router.new c : Router α).config = c from rfl] at hins
  simpa using hins

end Router

end Routing
