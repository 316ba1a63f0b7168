import Mathlib.Data.List.Chain
import Routing.Proofs.Trie.Walk
/-!
# The loops of the trie end

Two loops of the trie have no measure of their own. The walk of `Trie.resolve` backtracks: it
keeps the children still to try on a stack and comes back to earlier places in the path, and a
parameter node may read an empty segment. The loop that follows literal text on insertion
(`Trie.literalChild`) may split the child it goes through and go on from the new node. Both are
defined with fuel; here each is also run without a bound, as a relation whose derivations are
the loop's finite runs (`WalkRun`, `LiteralRun`). On every trie built by insertions the
unbounded runs exist and give what the fuelled functions compute (`loops_end_on_built_tries`).

The walk enters each node of the arena at most once: its stack holds attempts whose subtrees are
apart (`Pending`), and a turn takes the node it enters out of the subtrees the stack covers, for
good. So a walk takes no more turns than the arena has nodes. The literal loop reads a non-empty
head of its text on every turn that goes on, since a literal child's text starts with the
character it is keyed by, and a split keeps the arena labelled for the next turn.
-/

namespace Routing

namespace Trie

variable {α : Type} {t : Trie α} {ρ : NodeId → List PathStep}

/-! ## The walk run without a bound -/

section Walk

variable [Regex.Engine]

/-- The walk run from a stack of attempts to its end, with no bound on its turns: the nodes it
enters, in order, and its answer. A turn enters the node of the attempt on top of the stack: when
that fails the attempt is dropped; when the path is read and the node answers the method, the
walk answers; otherwise the children to try take the attempt's place. An empty stack ends the
walk with no answer. -/
inductive WalkRun (t : Trie α) (method : String) :
    List Attempt → List NodeId → Option Traversal → Prop
  | exhausted : WalkRun t method [] [] none
  | refused {a : Attempt} {s : List Attempt} {entered : List NodeId} {r : Option Traversal} :
      t.enter a.node a.rest a.values = none → WalkRun t method s entered r →
      WalkRun t method (a :: s) (a.node :: entered) r
  | answers {a : Attempt} {s : List Attempt} {rest : List Char} {values : Array String}
      {slot : MethodSlot} :
      t.enter a.node a.rest a.values = some (rest, values) →
      (if rest.isEmpty then t.answers a.node method else none) = some slot →
      WalkRun t method (a :: s) [a.node] (some { node := a.node, slot, values })
  | expands {a : Attempt} {s : List Attempt} {rest : List Char} {values : Array String}
      {entered : List NodeId} {r : Option Traversal} :
      t.enter a.node a.rest a.values = some (rest, values) →
      (if rest.isEmpty then t.answers a.node method else none) = none →
      WalkRun t method ((t.childrenAt a.node rest).map (fun id => ⟨id, rest, values⟩) ++ s) entered r →
      WalkRun t method (a :: s) (a.node :: entered) r

/-- A walk that ends after some turns is what the fuelled walk computes with more fuel. -/
theorem WalkRun.walk_eq {method : String} {s : List Attempt} {entered : List NodeId}
    {r : Option Traversal} (h : t.WalkRun method s entered r) :
    ∀ fuel, entered.length < fuel → t.walk method fuel s = r := by
  induction h with
  | exhausted =>
    intro fuel hf
    obtain ⟨f, rfl⟩ : ∃ f, fuel = f + 1 := ⟨fuel - 1, by simp at hf; omega⟩
    rfl
  | refused henter _ ih =>
    intro fuel hf
    obtain ⟨f, rfl⟩ : ∃ f, fuel = f + 1 := ⟨fuel - 1, by simp at hf; omega⟩
    simp only [walk, henter]
    exact ih f (by simp at hf; omega)
  | answers henter hans =>
    intro fuel hf
    obtain ⟨f, rfl⟩ : ∃ f, fuel = f + 1 := ⟨fuel - 1, by simp at hf; omega⟩
    simp only [walk, henter, hans]
  | expands henter hans _ ih =>
    intro fuel hf
    obtain ⟨f, rfl⟩ : ∃ f, fuel = f + 1 := ⟨fuel - 1, by simp at hf; omega⟩
    simp only [walk, henter, hans]
    exact ih f (by simp at hf; omega)

/-- From a stack whose attempts have subtrees apart the walk ends. The induction is on the
number of nodes the stack covers, which every turn lowers. -/
theorem Labelled.walkRun_exists (hL : t.Labelled ρ) (method : String) :
    ∀ n (s : List Attempt), t.load s < n → t.Pending s → ∃ entered r, t.WalkRun method s entered r := by
  intro n
  induction n with
  | zero => intro _ h; omega
  | succ n ih =>
    intro s hload hP
    cases s with
    | nil => exact ⟨[], none, .exhausted⟩
    | cons a s =>
      cases henter : t.enter a.node a.rest a.values with
      | none =>
        obtain ⟨entered, r, hrun⟩ := ih s (by have := hP.load_pop; omega) hP.pop
        exact ⟨_, r, .refused henter hrun⟩
      | some entered =>
        obtain ⟨rest, values⟩ := entered
        cases hans : (if rest.isEmpty then t.answers a.node method else none) with
        | some slot => exact ⟨_, _, .answers henter hans⟩
        | none =>
          obtain ⟨entered, r, hrun⟩ := ih _ (by have := hP.load_expand hL rest values; omega)
            (hP.expand hL rest values)
          exact ⟨_, r, .expands henter hans hrun⟩

/-- The nodes a walk enters are pairwise distinct, and each lies below an attempt of the stack
it started from. A turn enters the node on top, which no other attempt covers, and what it
leaves on the stack covers only nodes below the node or below the other attempts. -/
theorem Labelled.walkRun_entered (hL : t.Labelled ρ) {method : String} {s : List Attempt}
    {entered : List NodeId} {r : Option Traversal} (h : t.WalkRun method s entered r) :
    t.Pending s → entered.Nodup ∧ ∀ x ∈ entered, ∃ b ∈ s, t.Descends b.node x := by
  induction h with
  | exhausted => intro _; simp
  | @refused a s entered r _ _ ih =>
    intro hP
    obtain ⟨hnodup, hcov⟩ := ih hP.pop
    have hapart := (List.pairwise_cons.1 hP.apart).1
    refine ⟨List.nodup_cons.2 ⟨fun hmem => ?_, hnodup⟩, ?_⟩
    · obtain ⟨b, hb, hba⟩ := hcov a.node hmem
      exact hapart b hb a.node (.refl _) hba
    · rintro x (_ | ⟨_, hx⟩)
      · exact ⟨a, List.mem_cons_self, .refl _⟩
      · obtain ⟨b, hb, hbx⟩ := hcov x hx
        exact ⟨b, List.mem_cons_of_mem a hb, hbx⟩
  | @answers a s =>
    intro _
    refine ⟨List.nodup_singleton _, fun x hx => ?_⟩
    rw [List.mem_singleton] at hx
    exact ⟨a, List.mem_cons_self, hx ▸ .refl _⟩
  | @expands a s rest values entered r _ _ _ ih =>
    intro hP
    obtain ⟨hnodup, hcov⟩ := ih (hP.expand hL rest values)
    have hapart := (List.pairwise_cons.1 hP.apart).1
    refine ⟨List.nodup_cons.2 ⟨fun hmem => ?_, hnodup⟩, ?_⟩
    · -- the entered node lies below none of its children and none of the other attempts
      obtain ⟨b, hb, hba⟩ := hcov a.node hmem
      rcases List.mem_append.1 hb with hb | hb
      · obtain ⟨c, hc, rfl⟩ := List.mem_map.1 hb
        exact hL.not_descends_of_child (mem_childIds_of_childrenAt hc) hba
      · exact hapart b hb a.node (.refl _) hba
    · rintro x (_ | ⟨_, hx⟩)
      · exact ⟨a, List.mem_cons_self, .refl _⟩
      · obtain ⟨b, hb, hbx⟩ := hcov x hx
        rcases List.mem_append.1 hb with hb | hb
        · obtain ⟨c, hc, rfl⟩ := List.mem_map.1 hb
          exact ⟨a, List.mem_cons_self, .child (mem_childIds_of_childrenAt hc) hbx⟩
        · exact ⟨b, List.mem_cons_of_mem a hb, hbx⟩

omit [Regex.Engine] in
/-- Pairwise distinct node ids of an arena are no more than its nodes. -/
theorem length_le_of_nodup {l : List NodeId} {n : Nat} (hnodup : l.Nodup) (hlt : ∀ x ∈ l, x < n) :
    l.length ≤ n := by
  rw [← List.toFinset_card_of_nodup hnodup, ← Finset.card_range n]
  exact Finset.card_le_card fun x hx => Finset.mem_range.2 (hlt x (List.mem_toFinset.1 hx))

/-- On a labelled arena the walk of `resolve` ends with the answer `resolve` gives, and every run
of it from the root enters each node at most once. -/
theorem Labelled.resolve_walkRun (hL : t.Labelled ρ) (method : String) {path : String}
    {rest : List Char} (hpath : path.toList = '/' :: rest) :
    (∃ entered, t.WalkRun method [⟨rootId, path.toList, #[]⟩] entered (t.resolve method path)) ∧
      ∀ entered r, t.WalkRun method [⟨rootId, path.toList, #[]⟩] entered r →
        entered.Nodup ∧ entered.length ≤ t.nodes.size := by
  have hstart : t.Pending [⟨rootId, path.toList, #[]⟩] :=
    ⟨by simpa using hL.root_lt, List.pairwise_singleton _ _⟩
  -- every run from the root enters distinct nodes of the arena
  have hbound : ∀ entered r, t.WalkRun method [⟨rootId, path.toList, #[]⟩] entered r →
      entered.Nodup ∧ entered.length ≤ t.nodes.size := by
    intro entered r hrun
    obtain ⟨hnodup, hcov⟩ := hL.walkRun_entered hrun hstart
    refine ⟨hnodup, length_le_of_nodup hnodup fun x hx => ?_⟩
    obtain ⟨b, hb, hbx⟩ := hcov x hx
    rw [List.mem_singleton] at hb
    subst hb
    exact hL.descends_lt_size hbx hL.root_lt
  refine ⟨?_, hbound⟩
  obtain ⟨entered, r, hrun⟩ :=
    hL.walkRun_exists method _ _ (Nat.lt_succ_of_le (t.load_le _)) hstart
  have hlen := (hbound entered r hrun).2
  have hresolve : t.resolve method path = t.walk method (t.nodes.size + 1) [⟨rootId, path.toList, #[]⟩] := by
    unfold resolve
    rw [hpath]
    rfl
  rw [hresolve, hrun.walk_eq _ (by omega)]
  exact ⟨entered, hrun⟩

end Walk

/-! ## The literal loop run without a bound -/

/-- The loop that follows literal text run to its end, with no bound on its turns: from `parent`
with the text `rest` left it returns `result`; `texts` is the text left at the start of each
turn. -/
inductive LiteralRun : Trie α → NodeId → List Char → List (List Char) → Trie α × NodeId → Prop
  | last {t : Trie α} {p : NodeId} {rest : List Char} {result : Trie α × NodeId} :
      t.literalTurn p rest = .inl result → LiteralRun t p rest [rest] result
  | next {t t' : Trie α} {p p' : NodeId} {rest rest' : List Char} {texts : List (List Char)}
      {result : Trie α × NodeId} :
      t.literalTurn p rest = .inr (t', p', rest') → LiteralRun t' p' rest' texts result →
      LiteralRun t p rest (rest :: texts) result

theorem LiteralRun.head? {t : Trie α} {p : NodeId} {rest : List Char} {texts : List (List Char)}
    {result : Trie α × NodeId} (h : LiteralRun t p rest texts result) : texts.head? = some rest := by
  cases h <;> rfl

/-- On a labelled arena the literal loop from any node ends, given fuel above the length of the
text, with what `literalChild` computes; the text it has left gets strictly shorter from each
turn to the next. The induction is on the fuel; each turn that goes on keeps the arena
labelled. -/
theorem Labelled.literalRun (fuel : Nat) (t : Trie α) (ρ : NodeId → List PathStep) (p : NodeId)
    (rest : List Char) (hL : t.Labelled ρ) (hp : p < t.nodes.size) (hfuel : rest.length < fuel) :
    ∃ texts, LiteralRun t p rest texts (t.literalChild fuel p rest) ∧
      texts.IsChain fun a b => b.length < a.length := by
  induction fuel generalizing t ρ p rest with
  | zero => exact absurd hfuel (Nat.not_lt_zero _)
  | succ fuel ih =>
    rw [literalChild_succ]
    cases hturn : t.literalTurn p rest with
    | inl result => exact ⟨[rest], .last hturn, .singleton _⟩
    | inr next =>
      obtain ⟨t', p', rest'⟩ := next
      obtain ⟨head, ρ', hhead, hsplit, hreach⟩ := hL.literalTurn_reached hp hturn
      have hshorter : rest'.length < rest.length := by
        rw [hsplit, List.length_append]
        have := List.length_pos_iff.2 hhead
        omega
      obtain ⟨texts, hrun, hchain⟩ :=
        ih t' ρ' p' rest' hreach.labelled hreach.target_lt (by omega)
      refine ⟨rest :: texts, .next hturn hrun, ?_⟩
      rw [List.isChain_cons, hrun.head?]
      exact ⟨fun y hy => Option.mem_some_iff.1 hy ▸ hshorter, hchain⟩

/-! ## Tries built by insertions -/

section Loops

variable [Regex.Engine]

/-- Both loops of the trie end on `t`. The walk of `resolve`, run without a bound from the root
on a path that starts with `/`, ends with the answer `resolve` gives, and every run of it enters
each node of the arena at most once, so takes no more turns than there are nodes. The loop that
follows literal text from any node ends with the node `literalChild` gives, and the text it has
left gets strictly shorter from each turn to the next. -/
structure LoopsEnd (t : Trie α) : Prop where
  walk : ∀ method path rest, path.toList = '/' :: rest →
    (∃ entered, t.WalkRun method [⟨rootId, path.toList, #[]⟩] entered (t.resolve method path)) ∧
      ∀ entered r, t.WalkRun method [⟨rootId, path.toList, #[]⟩] entered r →
        entered.Nodup ∧ entered.length ≤ t.nodes.size
  literal : ∀ p, p < t.nodes.size → ∀ text : List Char, ∃ texts,
    LiteralRun t p text texts (t.literalChild (text.length + 1) p text) ∧
      texts.IsChain fun a b => b.length < a.length

/-- Both loops end on every labelled arena: those built by insertions, and every arena an
insertion passes through on its way. -/
theorem Labelled.loopsEnd (hL : t.Labelled ρ) : t.LoopsEnd where
  walk method _ _ hpath := hL.resolve_walkRun method hpath
  literal p hp text := Labelled.literalRun _ t ρ p text hL hp (Nat.lt_succ_self _)

/-- On every trie built by insertions both loops end. -/
theorem loops_end_on_built_tries {L : List (Insertion α)} (h : t.BuiltBy L) : t.LoopsEnd := by
  obtain ⟨ρ, hR⟩ := h.registry
  exact hR.labelled.loopsEnd

end Loops

/-- Both loops end on the trie of one literal route. -/
theorem literal_route_trie_loops_end :
    let t : Trie Nat := ⟨#[{ kind := .literal "/", literals := [('a', 1)] },
      { kind := .literal "ab", handlers := some ⟨[("GET", [⟨1, ⟨[]⟩⟩])]⟩ }]⟩
    t.BuiltBy [⟨"GET", "/ab", ⟨[.text "ab"], []⟩, 1⟩] ∧ t.LoopsEnd := by
  intro t
  have h : (Trie.empty : Trie Nat).insert "GET" "/ab" ⟨[.text "ab"], []⟩ 1 = .ok (t, 1) := rfl
  have hb : t.BuiltBy [⟨"GET", "/ab", ⟨[.text "ab"], []⟩, 1⟩] := .insert .empty h
  exact ⟨hb, loops_end_on_built_tries hb⟩

end Trie

end Routing
