import Routing.Proofs.Trie.Growth
import Routing.Proofs.Text.CommonPrefix
/-!
# Following a route down the trie

Insertion follows a route's tokens from the root, one token at a time, and each step answers the
node it reaches, creating or splitting nodes on the way. `Trie.Reached` is what such a descent
leaves behind: the grown trie keeps a labelling that extends the old one, the node reached is
labelled by the path it started from followed by the steps of what it read, and every node added
on the way lies on that path.

Each insertion function gets one such lemma (`literalChild_reached`, `paramChild_reached`,
`wildcardChild_reached`), built from the three edits of `Growth`; descents compose
(`Reached.trans`), so a whole route reaches the node labelled by its root path, and `insert`
is that descent followed by a change of the handler table alone (`insert_eq_ok`).

A split cuts a node's text at the byte offset where it parts from the text being inserted. That
offset is the byte length of the characters the two share (`Text.commonPrefixLen_eq_utf8Len`), so
the cut takes whole characters off both, and a literal turn reads a head of the text in characters.
-/

namespace Routing

open Routing.Regex

variable {α : Type}

/-! ## Ready tokens -/

/-- The root-path steps a token whose regex is read stands for. -/
def ReadyToken.steps : ReadyToken → List PathStep
  | .text s => s.toList.map .char
  | .param _ constraint => [.param (constraint.map (·.source))]
  | .wildcard => [.wildcard]

/-- A ready token's regex, when it has one, is the reading of its regex text. -/
def ReadyToken.Parsed : ReadyToken → Prop
  | .param _ (some c) => Pattern.parse c.source = .ok c.regex
  | _ => True

namespace Trie

/-! ## Descents -/

/-- Following `steps` from the node `p` of `t` ended at the node `q` of `t'`: `t'` grew from `t`
keeping a labelling `ρ'` that extends `ρ`, `q` is labelled by `p`'s path followed by `steps`, and
every node added on the way lies on that path. -/
structure Reached (t : Trie α) (ρ : NodeId → List PathStep) (p : NodeId) (steps : List PathStep)
    (t' : Trie α) (ρ' : NodeId → List PathStep) (q : NodeId) : Prop where
  labelled : t'.Labelled ρ'
  grows : Extends t t' ρ ρ'
  target_lt : q < t'.nodes.size
  target_path : ρ' q = ρ p ++ steps
  fresh_prefix : ∀ x, t.nodes.size ≤ x → x < t'.nodes.size → ρ' x <+: ρ p ++ steps

namespace Reached

variable {t t₁ t₂ t₃ : Trie α} {ρ ρ₁ ρ₂ ρ₃ : NodeId → List PathStep} {p q r : NodeId}
  {s₁ s₂ : List PathStep}

theorem refl (hL : t.Labelled ρ) (hp : p < t.nodes.size) : Reached t ρ p [] t ρ p where
  labelled := hL
  grows := Extends.refl t ρ
  target_lt := hp
  target_path := (List.append_nil _).symm
  fresh_prefix _ hx hx' := absurd hx' (Nat.not_lt.2 hx)

/-- A descent followed by another is a descent by the steps of both. -/
theorem trans (h₁ : Reached t₁ ρ₁ p s₁ t₂ ρ₂ q) (h₂ : Reached t₂ ρ₂ q s₂ t₃ ρ₃ r) :
    Reached t₁ ρ₁ p (s₁ ++ s₂) t₃ ρ₃ r where
  labelled := h₂.labelled
  grows := h₁.grows.trans h₂.grows
  target_lt := h₂.target_lt
  target_path := by rw [h₂.target_path, h₁.target_path, List.append_assoc]
  fresh_prefix x hx hx' := by
    rcases Nat.lt_or_ge x t₂.nodes.size with hlt | hge
    · rw [h₂.grows.path_eq x hlt]
      refine (h₁.fresh_prefix x hx hlt).trans ?_
      rw [← List.append_assoc]
      exact List.prefix_append _ _
    · have := h₂.fresh_prefix x hge hx'
      rwa [h₁.target_path, List.append_assoc] at this

/-- Going down to an existing child changes nothing. -/
theorem child (hL : t.Labelled ρ) {c : NodeId} (hc : c ∈ t.childIds p) :
    Reached t ρ p (t.ownSteps c) t ρ c where
  labelled := hL
  grows := Extends.refl t ρ
  target_lt := hL.child_lt p c hc
  target_path := hL.child_path p c hc
  fresh_prefix _ hx hx' := absurd hx' (Nat.not_lt.2 hx)

end Reached

variable {t : Trie α} {ρ : NodeId → List PathStep}

theorem reached_hang {p : NodeId} {n : Node α} {K : NodeKind} {g : Node α → Node α}
    (hL : t.Labelled ρ) (hp : t.node? p = some n) (hkind : (g n).kind = n.kind)
    (hperm : (g n).childList.Perm (t.nodes.size :: n.childList))
    (hhandlers : (g n).handlers = n.handlers)
    (hfresh : ∀ c ∈ t.childIds p, (t.ownSteps c).head? ≠ K.steps.head?)
    (hlit : ∀ k c, (k, c) ∈ (g n).literals →
      (k, c) ∈ n.literals ∨ c = t.nodes.size ∧ ∃ s, K = .literal s ∧ s.toList.head? = some k)
    (hpar : ∀ c ∈ (g n).params, c ∈ n.params ∨ c = t.nodes.size ∧ ∃ q, K = .param q)
    (hwild : ∀ c, (g n).wildcard = some c → n.wildcard = some c ∨ c = t.nodes.size ∧ K = .wildcard)
    (hregex : ∀ q c, K = .param q → q.constraint = some c → Pattern.parse c.source = .ok c.regex) :
    Reached t ρ p K.steps ((t.push { kind := K }).1.modify p g)
      (Function.update ρ t.nodes.size (ρ p ++ K.steps)) t.nodes.size where
  labelled := labelled_hang hp hkind hperm hL hfresh hlit hpar hwild hregex
  grows := extends_hang hp hhandlers
  target_lt := by simp
  target_path := Function.update_self _ _ _
  fresh_prefix x hx hx' := by
    have hxs : x = t.nodes.size := by simp at hx'; omega
    subst hxs
    simp

theorem reached_split {parent child : NodeId} {np nc : Node α} {s : String} {cut : Nat} {k d : Char}
    {hd tl : List Char} (hL : t.Labelled ρ) (hpar : t.node? parent = some np)
    (hch : t.node? child = some nc) (hne : parent ≠ child) (hlit : (k, child) ∈ np.literals)
    (hs : t.kind? child = some (.literal s)) (htake : s.toList.take cut = k :: hd)
    (hdrop : s.toList.drop cut = d :: tl) :
    Reached t ρ parent ((k :: hd).map .char) (t.splitArena parent child k d hd tl)
      (Function.update ρ t.nodes.size (ρ parent ++ (k :: hd).map .char)) t.nodes.size where
  labelled := labelled_split hpar hch hne hL hlit hs htake hdrop
  grows := extends_split hpar hch hne hlit hs
  target_lt := by simp [splitArena]
  target_path := Function.update_self _ _ _
  fresh_prefix x hx hx' := by
    have hxs : x = t.nodes.size := by simp [splitArena] at hx'; omega
    subst hxs
    simp

/-! ## Literal text -/

theorem literalChild_nil (t : Trie α) (fuel : Nat) (p : NodeId) : t.literalChild fuel p [] = (t, p) := by
  cases fuel <;> rfl

theorem literalChild_new {fuel : Nat} {p : NodeId} {first : Char} {more : List Char}
    (h : (t.node? p).bind (fun n => n.literals.lookup first) = none) :
    t.literalChild (fuel + 1) p (first :: more) =
      ((t.push { kind := .literal (String.ofList (first :: more)) }).1.modify p
        (fun n => { n with literals := setKey n.literals first t.nodes.size }), t.nodes.size) := by
  rw [literalChild]
  simp only [h]
  rfl

theorem literalChild_step {fuel : Nat} {p child : NodeId} {first : Char} {more : List Char}
    (h : (t.node? p).bind (fun n => n.literals.lookup first) = some child) :
    t.literalChild (fuel + 1) p (first :: more) =
      let common := Text.commonPrefixLen (t.text child).toList (first :: more)
      let next := if common < (t.text child).utf8ByteSize then t.split p child common else (t, child)
      next.1.literalChild fuel next.2 (Text.dropBytes (first :: more) common) := by
  rw [literalChild]
  simp only [h]

theorem node?_of_lt {t : Trie α} {p : NodeId} (hp : p < t.nodes.size) : ∃ n, t.node? p = some n :=
  ⟨t.nodes[p], by simp [node?, hp]⟩

/-- Below a node with no literal child keyed by `first`, hanging a literal leaf with the text
`first :: more` reaches the leaf along the text. -/
theorem reached_literalLeaf (hL : t.Labelled ρ) {p : NodeId} {n : Node α} (hn : t.node? p = some n)
    {first : Char} {more : List Char} (hlk : n.literals.lookup first = none) :
    ∃ ρ', Reached t ρ p ((first :: more).map .char)
      ((t.push { kind := .literal (String.ofList (first :: more)) }).1.modify p
        (fun n => { n with literals := setKey n.literals first t.nodes.size })) ρ' t.nodes.size := by
  have hsteps : (NodeKind.literal (String.ofList (first :: more))).steps =
      (first :: more).map .char := by simp [NodeKind.steps, String.toList_ofList]
  refine ⟨_, hsteps ▸ reached_hang (K := .literal (String.ofList (first :: more))) hL hn rfl ?_ rfl
    ?_ ?_ (fun c hc => .inl hc) (fun c hc => .inl hc) (fun _ _ hq _ => by cases hq)⟩
  · simp only [Node.childList, setKey_of_lookup_eq_none hlk, List.map_append, List.map_cons,
      List.map_nil, List.append_assoc, List.singleton_append]
    exact List.perm_middle
  · -- the leaf's first step is `first`, which no child of `p` begins with
    intro c hc
    rw [hsteps]
    obtain ⟨m, hm, hslot⟩ := mem_childIds.1 hc
    rw [hn] at hm; cases hm
    rcases hslot with ⟨k, hk⟩ | hk | hk
    · rw [hL.head_ownSteps_literal hn hk]
      intro he
      simp only [List.map_cons, List.head?_cons, Option.some.injEq, PathStep.char.injEq] at he
      subst he
      rw [List.lookup_eq_none_iff] at hlk
      simpa using hlk _ hk
    · obtain ⟨q, -, hq⟩ := hL.head_ownSteps_param hn hk
      simp [hq]
    · simp [hL.head_ownSteps_wildcard hn hk]
  · intro k c hkc
    rw [setKey_of_lookup_eq_none hlk, List.mem_append, List.mem_singleton] at hkc
    rcases hkc with hkc | hkc
    · exact .inl hkc
    · obtain ⟨rfl, rfl⟩ := Prod.mk.inj hkc
      exact .inr ⟨rfl, _, rfl, by simp [String.toList_ofList]⟩

/-- One turn of the loop of `literalChild` from `parent` with the text `rest` left: at the end of
the text it returns `parent`; with no literal child for the next character it hangs the text as
a new leaf and returns that; otherwise it goes through the child's common head with the text,
splitting the child there when the child's text goes on, and the next turn starts from the node
reached with the text after the head. -/
def literalTurn (t : Trie α) (parent : NodeId) :
    List Char → (Trie α × NodeId) ⊕ (Trie α × NodeId × List Char)
  | [] => .inl (t, parent)
  | first :: more =>
    match (t.node? parent).bind fun n => n.literals.lookup first with
    | none =>
      .inl ((t.push { kind := .literal (String.ofList (first :: more)) }).1.modify parent
        (fun n => { n with literals := setKey n.literals first t.nodes.size }), t.nodes.size)
    | some child =>
      let common := Text.commonPrefixLen (t.text child).toList (first :: more)
      let next := if common < (t.text child).utf8ByteSize then t.split parent child common
        else (t, child)
      .inr (next.1, next.2, Text.dropBytes (first :: more) common)

/-- `literalChild` takes one turn per unit of fuel. -/
theorem literalChild_succ (t : Trie α) (fuel : Nat) (p : NodeId) (rest : List Char) :
    t.literalChild (fuel + 1) p rest =
      match t.literalTurn p rest with
      | .inl r => r
      | .inr (t', p', rest') => t'.literalChild fuel p' rest' := by
  cases rest with
  | nil => rfl
  | cons first more =>
    cases hlk : (t.node? p).bind fun n => n.literals.lookup first with
    | none => simp only [literalChild_new hlk, literalTurn, hlk]
    | some child => simp only [literalChild_step hlk, literalTurn, hlk]

/-- A turn that ends returns the node labelled by the node's path and the whole text. -/
theorem Labelled.literalTurn_ends (hL : t.Labelled ρ) {p : NodeId} (hp : p < t.nodes.size)
    {rest : List Char} {result : Trie α × NodeId} (h : t.literalTurn p rest = .inl result) :
    ∃ ρ', Reached t ρ p (rest.map .char) result.1 ρ' result.2 := by
  cases rest with
  | nil =>
    cases h
    exact ⟨ρ, Reached.refl hL hp⟩
  | cons first more =>
    obtain ⟨n, hn⟩ := node?_of_lt hp
    cases hlk : n.literals.lookup first with
    | none =>
      -- no child begins with `first`: the whole text becomes a new leaf
      simp only [literalTurn, hn, Option.bind_some, hlk, Sum.inl.injEq] at h
      subst h
      exact reached_literalLeaf hL hn hlk
    | some child => simp [literalTurn, hn, hlk] at h

/-- A turn that goes on reads a non-empty head of the text, since the child keyed by the next
character starts with that character; the node it goes on from is reached along the head. -/
theorem Labelled.literalTurn_reached (hL : t.Labelled ρ) {p : NodeId} (hp : p < t.nodes.size)
    {rest rest' : List Char} {t' : Trie α} {p' : NodeId}
    (h : t.literalTurn p rest = .inr (t', p', rest')) :
    ∃ head ρ', head ≠ [] ∧ rest = head ++ rest' ∧ Reached t ρ p (head.map .char) t' ρ' p' := by
  cases rest with
  | nil => cases h
  | cons first more =>
    obtain ⟨n, hn⟩ := node?_of_lt hp
    cases hlk : n.literals.lookup first with
    | none => simp [literalTurn, hn, hlk] at h
    | some child =>
      have hsome : (t.node? p).bind (fun n => n.literals.lookup first) = some child := by
        simp [hn, hlk]
      simp only [literalTurn, hsome, Sum.inr.injEq] at h
      have hmem : (first, child) ∈ n.literals := mem_of_lookup_eq_some hlk
      have hpc : child ∈ t.childIds p := mem_childIds.2 ⟨n, hn, .inl ⟨first, hmem⟩⟩
      obtain ⟨s, hs, hhead⟩ := hL.literal_slot p n hn first child hmem
      obtain ⟨tail, hst⟩ : ∃ tail, s.toList = first :: tail := by
        cases h' : s.toList with
        | nil => simp [h'] at hhead
        | cons a tail => simp [h'] at hhead; exact ⟨tail, by rw [hhead]⟩
      rw [text_of_literal hs, Text.commonPrefixLen_eq_utf8Len] at h
      have hle := Text.commonPrefixChars_le_left s.toList (first :: more)
      have htk := Text.take_commonPrefixChars s.toList (first :: more)
      have hpos : 1 ≤ Text.commonPrefixChars s.toList (first :: more) := by
        rw [hst, Text.commonPrefixChars_cons_cons]; omega
      generalize Text.commonPrefixChars s.toList (first :: more) = common at h hle htk hpos
      -- the offset ends the first `common` characters of both texts: read it in characters
      have hrest : Text.dropBytes (first :: more) (String.utf8Len (s.toList.take common)) =
          (first :: more).drop common := by
        rw [htk, Text.dropBytes_utf8Len_take]
      simp only [← String.utf8Len_toList, Text.utf8Len_take_lt_iff, hrest] at h
      obtain ⟨c, rfl⟩ : ∃ c, common = c + 1 := ⟨common - 1, by omega⟩
      have hhd : (first :: more).take (c + 1) ≠ [] := by simp
      by_cases hcut : c + 1 < s.toList.length
      · -- the child's text goes on past the common head: it is split there
        rw [if_pos hcut] at h
        obtain ⟨rfl, rfl, rfl⟩ := h
        have htake : s.toList.take (c + 1) = first :: tail.take c := by rw [hst]; rfl
        obtain ⟨d, tl, hdrop⟩ : ∃ d tl, s.toList.drop (c + 1) = d :: tl := by
          cases h' : s.toList.drop (c + 1) with
          | nil =>
            have := congrArg List.length h'
            simp only [List.length_drop, List.length_nil] at this; omega
          | cons d tl => exact ⟨d, tl, rfl⟩
        obtain ⟨nc, hnc⟩ := node?_of_lt (hL.child_lt p child hpc)
        have hne : p ≠ child := fun h => by
          have := hL.path_length_lt hpc; rw [h] at this; omega
        have hreach := reached_split hL hn hnc hne hmem hs htake hdrop
        rw [← htake, htk] at hreach
        rw [split_eq hs (by rw [Text.takeBytes_utf8Len_take, htake])
          (by rw [Text.dropBytes_utf8Len_take, hdrop])]
        exact ⟨_, _, hhd, (List.take_append_drop _ _).symm, hreach⟩
      · -- the child's whole text is a head of the text: the turn goes on below the child
        rw [if_neg hcut] at h
        obtain ⟨rfl, rfl, rfl⟩ := h
        have hcl : c + 1 = s.toList.length := by omega
        refine ⟨_, ρ, hhd, (List.take_append_drop _ _).symm, ?_⟩
        have h₁ := Reached.child hL hpc
        rw [ownSteps_of_kind hs, NodeKind.steps] at h₁
        rwa [← htk, hcl, List.take_length]

/-- Following literal text from a node reaches the node labelled by the node's path and the
text, given fuel for each character. The induction is on the fuel, one turn at a time. -/
theorem literalChild_reached (fuel : Nat) (t : Trie α) (ρ : NodeId → List PathStep) (p : NodeId)
    (rest : List Char) (hL : t.Labelled ρ) (hp : p < t.nodes.size) (hfuel : rest.length < fuel) :
    ∃ ρ', Reached t ρ p (rest.map .char) (t.literalChild fuel p rest).1 ρ'
      (t.literalChild fuel p rest).2 := by
  induction fuel generalizing t ρ p rest with
  | zero => exact absurd hfuel (Nat.not_lt_zero _)
  | succ fuel ih =>
    rw [literalChild_succ]
    cases hturn : t.literalTurn p rest with
    | inl result => exact hL.literalTurn_ends hp hturn
    | inr next =>
      obtain ⟨t', p', rest'⟩ := next
      obtain ⟨head, ρ', hhead, rfl, h₁⟩ := hL.literalTurn_reached hp hturn
      have hfuel' : rest'.length < fuel := by
        have := List.length_pos_iff.2 hhead
        simp only [List.length_append] at hfuel; omega
      obtain ⟨ρ'', h₂⟩ := ih t' ρ' p' rest' h₁.labelled h₁.target_lt hfuel'
      exact ⟨ρ'', by rw [List.map_append]; exact h₁.trans h₂⟩

/-! ## Parameter spans and the wildcard -/

theorem getD_findIdx?_le {β : Type} (l : List β) (P : β → Bool) :
    (l.findIdx? P).getD l.length ≤ l.length := by
  cases h : l.findIdx? P with
  | none => simp
  | some i => exact Nat.le_of_lt (List.findIdx?_eq_some_iff_findIdx_eq.1 h).1

theorem param?_of_kind {t : Trie α} {id : NodeId} {q : ParamNode} (h : t.kind? id = some (.param q)) :
    t.param? id = some q := by
  obtain ⟨n, hn, hk⟩ := kind?_eq_some.1 h
  obtain ⟨kind, literals, params, wildcard, handlers⟩ := n
  simp only at hk
  subst hk
  simp [param?, hn]

theorem extends_reshape {t : Trie α} {ρ : NodeId → List PathStep} {x : NodeId} {f : Node α → Node α}
    (hhandlers : ∀ n, (f n).handlers = n.handlers) : Extends t (t.modify x f) ρ ρ where
  size_le := by simp
  path_eq _ _ := rfl
  handlers_eq y _ := by
    rw [node?_modify]
    split_ifs with hy
    · subst hy
      cases t.node? y <;> simp [hhandlers]
    · rfl
  handlers_new y hy := by
    have hy' : (t.modify x f).nodes.size ≤ y := by simpa using hy
    simp [node?, Array.getElem?_eq_none hy']

theorem Reached.reshape {t t' : Trie α} {ρ ρ' : NodeId → List PathStep} {p q x : NodeId}
    {s : List PathStep} {f : Node α → Node α} (h : Reached t ρ p s t' ρ' q)
    (hchildren : ∀ n, (f n).literals = n.literals ∧ (f n).params = n.params ∧ (f n).wildcard = n.wildcard)
    (hkind : ∀ n, NodeKind.Resembles n.kind (f n).kind) (hhandlers : ∀ n, (f n).handlers = n.handlers) :
    Reached t ρ p s (t'.modify x f) ρ' q where
  labelled := labelled_reshape hchildren hkind h.labelled
  grows := h.grows.trans (extends_reshape hhandlers)
  target_lt := by simpa using h.target_lt
  target_path := h.target_path
  fresh_prefix y hy hy' := h.fresh_prefix y hy (by simpa using hy')

/-- A parameter span reaches the sibling with its signature, merged, or a new sibling. -/
theorem paramChild_reached {t : Trie α} {ρ : NodeId → List PathStep} {p : NodeId}
    (hL : t.Labelled ρ) (hp : p < t.nodes.size) (span : ParamSpan) (constraint : Option Constraint)
    (hc : (ReadyToken.param span constraint).Parsed) :
    ∃ ρ', Reached t ρ p [.param (constraint.map (·.source))] (t.paramChild p span constraint).1 ρ'
      (t.paramChild p span constraint).2 := by
  obtain ⟨n, hn⟩ := node?_of_lt hp
  unfold paramChild
  simp only [hn, Option.map_some, Option.getD_some]
  split
  · -- a sibling has the same signature: the span's text is merged into it
    rename_i id hfind
    have hid : id ∈ n.params := List.mem_of_find?_eq_some hfind
    obtain ⟨q, hq, -⟩ := hL.head_ownSteps_param hn hid
    have hsig : q.signature = constraint.map (·.source) := by
      simpa [param?_of_kind hq] using List.find?_some hfind
    have h₁ : Reached t ρ p [.param (constraint.map (·.source))] t ρ id := by
      have := Reached.child hL (mem_childIds.2 ⟨n, hn, .inr (.inl hid)⟩)
      rwa [ownSteps_of_kind hq, NodeKind.steps, hsig] at this
    refine ⟨ρ, h₁.reshape (fun m => ?_) (fun m => ?_) (fun m => ?_)⟩
    · split <;> (try split) <;> simp
    · split
      · rename_i r hr
        split
        · exact .inl rfl
        · exact .inr ⟨r, _, hr, rfl⟩
      · exact .inl rfl
    · split <;> (try split) <;> simp
  · -- a new sibling, placed before the first sibling that sorts after it
    rename_i hfind
    have hle := getD_findIdx?_le n.params
      (fun id => ((t.param? id).map (·.sortsAfter
        { constraint, suffix := span.suffix, sources := [span.source] })).getD false)
    refine ⟨_, reached_hang (K := .param { constraint, suffix := span.suffix, sources := [span.source] })
      hL hn rfl ?_ rfl ?_ (fun k c hkc => .inl hkc) ?_ (fun c hc => .inl hc) ?_⟩
    · simp only [Node.childList, push_id]
      refine (((List.perm_insertIdx _ _ hle).append_left _).append_right _).trans ?_
      simp only [List.append_assoc, List.cons_append]
      exact List.perm_middle
    · intro c hc
      rcases hL.head_ownSteps hn hc with ⟨k, -, hk⟩ | ⟨hcp, q, hq, hhead⟩ | ⟨-, hw⟩
      · simp [hk, NodeKind.steps]
      · have := List.find?_eq_none.1 hfind c hcp
        simpa [hhead, param?_of_kind hq, NodeKind.steps, ParamNode.signature] using this
      · simp [hw, NodeKind.steps]
    · intro c hc
      rcases (List.mem_insertIdx hle).1 hc with rfl | hc
      · exact .inr ⟨rfl, _, rfl⟩
      · exact .inl hc
    · intro q c hq hqc
      cases hq
      cases hqc
      exact hc

/-- The wildcard reaches the wildcard child, created if missing. -/
theorem wildcardChild_reached {t : Trie α} {ρ : NodeId → List PathStep} {p : NodeId}
    (hL : t.Labelled ρ) (hp : p < t.nodes.size) :
    ∃ ρ', Reached t ρ p [.wildcard] (t.wildcardChild p).1 ρ' (t.wildcardChild p).2 := by
  obtain ⟨n, hn⟩ := node?_of_lt hp
  unfold wildcardChild
  simp only [hn, Option.bind_some]
  split
  · rename_i id hw
    have h₁ := Reached.child hL (mem_childIds.2 ⟨n, hn, .inr (.inr hw)⟩)
    rw [ownSteps_of_kind (hL.wildcard_slot p n hn id hw)] at h₁
    exact ⟨ρ, h₁⟩
  · rename_i hw
    refine ⟨_, reached_hang (K := .wildcard) hL hn rfl ?_ rfl ?_ (fun k c hkc => .inl hkc)
      (fun c hc => .inl hc) ?_ (fun _ _ hq _ => nomatch hq)⟩
    · simp only [Node.childList, hw, push_id, Option.toList_some, Option.toList_none,
        List.append_nil]
      exact List.perm_append_singleton _ _
    · intro c hc
      rcases hL.head_ownSteps hn hc with ⟨k, -, hk⟩ | ⟨-, q, -, hq⟩ | ⟨hcw, -⟩
      · simp [hk, NodeKind.steps]
      · simp [hq, NodeKind.steps]
      · simp [hw] at hcw
    · intro c hc
      simp only [push_id, Option.some.injEq] at hc
      exact .inr ⟨hc.symm, rfl⟩

/-! ## Routes -/

/-- Following one token from a node reaches the node labelled by the node's path and the
token's steps. -/
theorem descend_reached {t : Trie α} {ρ : NodeId → List PathStep} {p : NodeId}
    (hL : t.Labelled ρ) (hp : p < t.nodes.size) (tok : ReadyToken) (htok : tok.Parsed) :
    ∃ ρ', Reached t ρ p tok.steps (t.descend p tok).1 ρ' (t.descend p tok).2 := by
  cases tok with
  | text s =>
    exact literalChild_reached _ t ρ p s.toList hL hp (by rw [String.length_toList]; omega)
  | param span constraint => exact paramChild_reached hL hp span constraint htok
  | wildcard => exact wildcardChild_reached hL hp

/-- Following tokens one after the other reaches the node labelled by their steps. -/
theorem foldl_descend_reached (toks : List ReadyToken) (htoks : ∀ tok ∈ toks, tok.Parsed)
    (acc : Trie α × NodeId) (ρ : NodeId → List PathStep) (hL : acc.1.Labelled ρ)
    (hp : acc.2 < acc.1.nodes.size) :
    ∃ ρ', Reached acc.1 ρ acc.2 (toks.flatMap ReadyToken.steps)
      (toks.foldl (fun acc tok => acc.1.descend acc.2 tok) acc).1 ρ'
      (toks.foldl (fun acc tok => acc.1.descend acc.2 tok) acc).2 := by
  induction toks generalizing acc ρ with
  | nil => exact ⟨ρ, Reached.refl hL hp⟩
  | cons tok toks ih =>
    obtain ⟨ρ₁, h₁⟩ := descend_reached hL hp tok (htoks tok List.mem_cons_self)
    obtain ⟨ρ₂, h₂⟩ := ih (fun tok h => htoks tok (List.mem_cons_of_mem _ h)) _ ρ₁ h₁.labelled h₁.target_lt
    exact ⟨ρ₂, h₁.trans h₂⟩

/-- Reading a route's regexes keeps its root path and reads every regex. -/
theorem readyTokens_ok {pattern : String} {tokens : List Token} {ready : List ReadyToken}
    (h : readyTokens pattern tokens = .ok ready) :
    ready.flatMap ReadyToken.steps = tokens.flatMap Token.rootPath ∧ ∀ tok ∈ ready, tok.Parsed := by
  induction tokens generalizing ready with
  | nil =>
    cases h
    simp
  | cons tok toks ih =>
    rw [readyTokens, List.mapM_cons] at h
    obtain ⟨r, hr, h⟩ := Except.bind_eq_ok.1 h
    obtain ⟨rs, hrs, h⟩ := Except.bind_eq_ok.1 h
    cases h
    obtain ⟨ih₁, ih₂⟩ := ih hrs
    -- the one token read
    have hone : r.steps = tok.rootPath ∧ r.Parsed := by
      cases tok with
      | text s => cases hr; exact ⟨rfl, trivial⟩
      | wildcard => cases hr; exact ⟨rfl, trivial⟩
      | param span =>
        simp only at hr
        split at hr
        · rename_i hnone
          cases hr
          exact ⟨by simp [ReadyToken.steps, Token.rootPath, hnone], trivial⟩
        · rename_i source hsome
          split at hr
          · rename_i regex hparse
            cases hr
            exact ⟨by simp [ReadyToken.steps, Token.rootPath, hsome], hparse⟩
          · cases hr
    refine ⟨by simp [hone.1, ih₁], ?_⟩
    rintro tok (_ | ⟨_, htok⟩)
    · exact hone.2
    · exact ih₂ tok htok

/-- The change `insert` makes at the node where a route ends: the handler is appended under the
method, in a new table if the node had none. -/
def addHandler (method : String) (h : Handler α) (n : Node α) : Node α :=
  { n with handlers := some ((n.handlers.getD .empty).push method h) }

/-- A successful insertion follows the route's root path from the root, then changes the handler
table of the node it reached and nothing else. -/
theorem insert_eq_ok {t t' : Trie α} {ρ : NodeId → List PathStep} {method pattern : String}
    {route : Route} {value : α} {last : NodeId} (hL : t.Labelled ρ)
    (h : t.insert method pattern route value = .ok (t', last)) :
    ∃ t₁ ρ', Reached t ρ rootId route.rootPath t₁ ρ' last ∧
      t' = t₁.modify last (addHandler method { value, params := { names := route.params } }) := by
  unfold insert at h
  obtain ⟨ready, hready, h⟩ := Except.bind_eq_ok.1 h
  obtain ⟨hsteps, hparsed⟩ := readyTokens_ok hready
  obtain ⟨ρ', hR⟩ := foldl_descend_reached ready hparsed (t, rootId) ρ hL hL.root_lt
  generalize ready.foldl (fun acc tok => acc.1.descend acc.2 tok) (t, rootId) = res at h hR
  obtain ⟨t₁, l⟩ := res
  cases h
  refine ⟨t₁, ρ', ?_, rfl⟩
  rw [Route.rootPath, ← hsteps]
  exact hR

end Trie

end Routing
