import Routing.Proofs.Template.Lossless
import Routing.Proofs.Router.Reachable
import Routing.Proofs.Path.Normalize
/-!
# Optional templates expand one level

A template whose last segment is an optional parameter, `/:name?` (possibly constrained, and
possibly followed by one `/`), compiles to the two templates it stands for: `present`, which keeps
the parameter, and `absent`, which drops it. Under every configuration neither compiles to an
optional template again, so `Router.add` adds an optional template as its two variants, one
after the other, and goes no deeper (`optional_expands_one_level`).

The reader looks for the first `/:` whose parameter is followed by `?` (`findOptional_eq_some`),
and splits there only when the `?` ends the template or one `/` follows it. What follows a
parameter is an unchanged suffix of the template (`optionalParamEnd_spec`). In `present` the
marker is gone and the parameter ends the text, save for one `/`; its last character is no `?`
and no `/`, so no parameter of `present` is followed by a `?` that ends it. `absent` is the text
before the optional parameter: a marker found there would have been found in the template
before it, since whether a parameter is followed by `?` is decided by the text up to that `?`
(`optionalParamEnd_frame`).
-/

namespace Routing

/-- Where a possibly optional parameter ends, read after its `/:`: the length of its name and
constraint, and the text after them. -/
def optionalParamEnd (r : List Char) : Nat × List Char :=
  let name := r.takeWhile (!endsOptionalName ·)
  let after := r.dropWhile (!endsOptionalName ·)
  match after with
  | '\x7b' :: t =>
    match closeBrace t with
    | some (inner, rest) => (name.length + inner.length + 2, rest)
    | none => (name.length, after)
  | _ => (name.length, after)

/-! ## Constraint braces -/

/-- A constraint's text, its `}` and what follows make up the text read. -/
theorem closeBraceFrom_spells : ∀ (cs : List Char) (depth : Nat) (acc inner after : List Char),
    closeBraceFrom cs depth acc = some (inner, after) → acc.reverse ++ cs = inner ++ '\x7d' :: after := by
  intro cs depth acc
  fun_induction closeBraceFrom cs depth acc with
  | case1 | case2 => intro inner after h; cases h
  | case3 c rest depth acc ih => exact fun inner after h => by simpa using ih inner after h
  | case4 rest depth acc _ _ ih => exact fun inner after h => by simpa using ih inner after h
  | case5 rest depth acc hd =>
    intro inner after h
    cases h
    rfl
  | case6 rest depth acc hd _ _ _ ih => exact fun inner after h => by simpa using ih inner after h
  | case7 c rest depth acc hnil hcons hb hc ih => exact fun inner after h => by simpa using ih inner after h

/-- A constraint that closes in a text closes at the same place whatever follows the text. -/
theorem closeBraceFrom_append : ∀ (x : List Char) (depth : Nat) (acc : List Char) {inner z : List Char}
    (y : List Char), closeBraceFrom x depth acc = some (inner, z) →
      closeBraceFrom (x ++ y) depth acc = some (inner, z ++ y) := by
  intro x depth acc
  fun_induction closeBraceFrom x depth acc with
  | case1 | case2 => intro inner z y h; cases h
  | case3 c rest depth acc ih =>
    intro inner z y h
    rw [List.cons_append, List.cons_append, closeBraceFrom.eq_3]
    exact ih y h
  | case4 rest depth acc _ _ ih =>
    intro inner z y h
    rw [List.cons_append, closeBraceFrom_cons (by decide), if_pos rfl]
    exact ih y h
  | case5 rest depth acc hd =>
    intro inner z y h
    cases h
    rw [List.cons_append, closeBraceFrom_cons (by decide), if_neg (by decide), if_pos rfl, if_pos hd]
  | case6 rest depth acc hd _ _ _ ih =>
    intro inner z y h
    rw [List.cons_append, closeBraceFrom_cons (by decide), if_neg (by decide), if_pos rfl, if_neg hd]
    exact ih y h
  | case7 c rest depth acc hnil hcons hb hc ih =>
    intro inner z y h
    have hbs : c ≠ '\\' := by
      intro hc'
      cases rest with
      | nil => exact hnil hc' rfl
      | cons d rest => exact hcons d rest hc' rfl
    rw [List.cons_append, closeBraceFrom_cons hbs, if_neg hb, if_neg hc]
    exact ih y h

/-! ## Where a parameter ends -/

/-- What follows a parameter, given what follows its name: the text after the `}` of its
constraint when it has one that closes, else what follows its name. -/
def afterConstraint : List Char → List Char
  | '\x7b' :: t =>
    match closeBrace t with
    | some (_, rest) => rest
    | none => '\x7b' :: t
  | after => after

theorem optionalParamEnd_snd (r : List Char) :
    (optionalParamEnd r).2 = afterConstraint (r.dropWhile (!endsOptionalName ·)) := by
  dsimp only [optionalParamEnd]
  split
  · rename_i t hafter
    rw [hafter, afterConstraint]
    split <;> rfl
  · rename_i hafter
    rw [afterConstraint.eq_2 _ hafter]

theorem afterConstraint_suffix (d : List Char) : afterConstraint d <:+ d := by
  unfold afterConstraint
  split
  · rename_i t
    split
    · rename_i inner rest hclose
      exact (closeBraceFrom_suffix t 1 [] inner rest hclose).trans
        ((List.tail_suffix t).trans (List.suffix_cons _ t))
    · exact List.suffix_refl _
  · exact List.suffix_refl _

/-- The parameter read after `/:` and what follows it make up the text; the parameter's last
character, or the `:` before it when it is empty, is no `/` and no `?`. -/
theorem optionalParamEnd_spec (r : List Char) : ∃ P, r = P ++ (optionalParamEnd r).2 ∧
    P.length = (optionalParamEnd r).1 ∧ ∀ x ∈ (':' :: P).getLast?, x ≠ '/' ∧ x ≠ '?' := by
  have hsplit := (List.takeWhile_append_dropWhile (p := (!endsOptionalName ·)) (l := r)).symm
  -- the characters of the name end no name, so they are no `/` and no `?`
  have hname : ∀ x ∈ (':' :: r.takeWhile (!endsOptionalName ·)).getLast?, x ≠ '/' ∧ x ≠ '?' := by
    intro x hx
    rw [List.getLast?_cons, Option.mem_some_iff] at hx
    cases hl : (r.takeWhile (!endsOptionalName ·)).getLast? with
    | none =>
      rw [hl] at hx
      subst hx
      decide
    | some y =>
      rw [hl] at hx
      subst hx
      have hy := List.all_eq_true.1 List.all_takeWhile y (List.mem_of_getLast? hl)
      simp only [Bool.not_eq_true', endsOptionalName, Bool.or_eq_false_iff, beq_eq_false_iff_ne] at hy
      exact ⟨hy.1.1.1.1.1, hy.1.1.1.1.2⟩
  dsimp only [optionalParamEnd]
  split
  · rename_i t hafter
    split
    · rename_i inner rest hclose
      have ht := closeBraceFrom_spells t 1 [] inner rest hclose
      simp only [List.reverse_nil, List.nil_append] at ht
      refine ⟨r.takeWhile (!endsOptionalName ·) ++ '\x7b' :: inner ++ ['\x7d'], ?_, ?_, ?_⟩
      · rw [hafter, ht] at hsplit
        simpa using hsplit
      · simp only [List.length_append, List.length_cons, List.length_nil]
        omega
      · intro x hx
        simp only [List.getLast?_cons, List.getLast?_append, Option.some_or, Option.getD_some,
          Option.mem_some_iff] at hx
        subst hx
        decide
    · exact ⟨_, hsplit, rfl, hname⟩
  · exact ⟨_, hsplit, rfl, hname⟩

/-- A `?` that follows a constraint or a name inside the text `d` follows it whatever comes
after `d`: a constraint closing before the `?` closes in `d`. -/
theorem afterConstraint_frame {d x s : List Char} (hd : d ≠ []) (h : afterConstraint (d ++ x) = '?' :: s)
    (hx : '?' ∉ x) (y : List Char) : ∃ s', afterConstraint (d ++ y) = '?' :: s' := by
  have hnotx : ∀ l, l <:+ x → l ≠ '?' :: s := fun l hl heq =>
    hx (hl.mem (heq ▸ List.mem_cons_self))
  obtain ⟨c, rest, rfl⟩ := List.exists_cons_of_ne_nil hd
  by_cases hc : c = '\x7b'
  · -- a constraint: it closes before the `?`, hence inside `d`
    subst hc
    simp only [List.cons_append, afterConstraint] at h ⊢
    rcases hclose : closeBrace (rest ++ x) with _ | ⟨inner, after⟩ <;> rw [hclose] at h
    · cases h
    · dsimp only at h
      have hsuf := (closeBraceFrom_suffix (rest ++ x) 1 [] inner after hclose).trans (List.tail_suffix _)
      have hxs : x <:+ after := by
        rcases le_total x.length after.length with hle | hle
        · exact List.suffix_of_suffix_length_le (List.suffix_append rest x) hsuf hle
        · exact absurd h (hnotx after (List.suffix_of_suffix_length_le hsuf (List.suffix_append rest x) hle))
      obtain ⟨z, rfl, hz⟩ := closeBraceFrom_frame rest 1 [] hclose hxs
      rw [closeBrace, closeBraceFrom_append rest 1 [] y hz]
      obtain ⟨c', z', rfl⟩ := List.exists_cons_of_ne_nil fun hz' : z = [] => by
        subst hz'
        exact hnotx x (List.suffix_refl x) h
      obtain ⟨rfl, -⟩ := List.cons.inj h
      exact ⟨_, rfl⟩
  · -- no constraint: the `?` is the character that ended the name
    have hne : ∀ (l : List Char) t, c :: l ≠ '\x7b' :: t := fun _ t h' => hc (List.cons.inj h').1
    rw [List.cons_append, afterConstraint.eq_2 _ (hne _)] at h
    rw [List.cons_append, afterConstraint.eq_2 _ (hne _)]
    obtain ⟨rfl, -⟩ := List.cons.inj h
    exact ⟨_, rfl⟩

/-- A parameter whose `?` lies in the text `a` is followed by that `?` whatever follows `a`: the
name, the constraint's braces and the character after them are all read before the `?`. -/
theorem optionalParamEnd_frame {a x s : List Char} (h : (optionalParamEnd (a ++ x)).2 = '?' :: s)
    (hx : '?' ∉ x) (y : List Char) : ∃ s', (optionalParamEnd (a ++ y)).2 = '?' :: s' := by
  rw [optionalParamEnd_snd, List.dropWhile_append] at h ⊢
  split at h
  · -- the name runs on into `x`, and so does what follows it
    have hsuf : afterConstraint (x.dropWhile (!endsOptionalName ·)) <:+ x :=
      (afterConstraint_suffix _).trans (List.dropWhile_suffix _)
    exact absurd (hsuf.mem (h ▸ List.mem_cons_self)) hx
  · rename_i hne
    rw [if_neg hne]
    exact afterConstraint_frame (fun h' => hne (by rw [h']; rfl)) h hx y

/-! ## The reader's split -/

/-- No parameter after a `/:` starting before position `n` of `cs` is followed by `?`. -/
def NoMarkBefore (cs : List Char) (n : Nat) : Prop :=
  ∀ j r, j < n → cs.drop j = '/' :: ':' :: r → ∀ t, (optionalParamEnd r).2 ≠ '?' :: t

/-- The reader splits a template at the first parameter followed by `?`, when that `?` ends the
template or one `/` follows it: `present` drops the `?`, `absent` the whole parameter. -/
theorem findOptional_eq_some (whole : List Char) : ∀ (pre : Nat) (cs : List Char) {present absent : String},
    findOptional whole pre cs = .ok (some (present, absent)) →
    ∃ X r len trailing, cs = X ++ '/' :: ':' :: r ∧ optionalParamEnd r = (len, '?' :: trailing) ∧
      (trailing = [] ∨ trailing = ['/']) ∧ NoMarkBefore cs X.length ∧
      present = String.ofList (whole.take (pre + X.length + 2 + len) ++ trailing) ∧
      absent = (if (whole.take (pre + X.length) ++ trailing).isEmpty then "/"
        else String.ofList (whole.take (pre + X.length) ++ trailing)) := by
  intro pre cs
  fun_induction findOptional whole pre cs with
  | case1 pre r name after len trailing hvalid present' =>
    rename_i absent' hend
    intro present absent h
    simp only [pure, Except.pure, Except.ok.injEq, Option.some.injEq, Prod.mk.injEq] at h
    obtain ⟨rfl, rfl⟩ := h
    refine ⟨[], r, len, trailing, rfl, hend, ?_, fun j _ hj => absurd hj (Nat.not_lt_zero j), rfl, rfl⟩
    simpa using hvalid
  | case2 => intro present absent h; cases h
  | case3 pre r name after len afterParam hend =>
    rename_i hnot ih
    intro present absent h
    obtain ⟨X, r', len', trailing, rfl, hend', hvalid, hno, hp, ha⟩ := ih h
    refine ⟨'/' :: ':' :: X, r', len', trailing, rfl, hend', hvalid, ?_, ?_, ?_⟩
    · -- the parameter at the front is not followed by `?`; later ones are those of `X`
      intro j r'' hj hdrop t
      match j, hj, hdrop with
      | 0, _, hdrop =>
        simp only [List.drop_zero, List.cons.injEq, true_and] at hdrop
        have hend0 : optionalParamEnd (X ++ '/' :: ':' :: r') = (len, afterParam) := hend
        rw [← hdrop, hend0]
        exact hnot t
      | 1, _, hdrop => simp at hdrop
      | j + 2, hj, hdrop => exact hno j r'' (by simpa using hj) (by simpa using hdrop) t
    · rw [hp]
      simp only [List.length_cons]
      congr 3
      omega
    · rw [ha]
      simp only [List.length_cons]
      rw [show pre + 2 + X.length = pre + (X.length + 1 + 1) by omega]
  | case4 pre c r hnot ih =>
    intro present absent h
    obtain ⟨X, r', len', trailing, rfl, hend', hvalid, hno, hp, ha⟩ := ih h
    refine ⟨c :: X, r', len', trailing, rfl, hend', hvalid, ?_, ?_, ?_⟩
    · intro j r'' hj hdrop t
      match j, hj, hdrop with
      | 0, _, hdrop =>
        simp only [List.drop_zero, List.cons.injEq] at hdrop
        exact (hnot r'' hdrop.1 hdrop.2).elim
      | j + 1, hj, hdrop => exact hno j r'' (by simpa using hj) (by simpa using hdrop) t
    · rw [hp]
      simp only [List.length_cons]
      congr 3
      omega
    · rw [ha]
      simp only [List.length_cons]
      rw [show pre + 1 + X.length = pre + (X.length + 1) by omega]
  | case5 => intro present absent h; cases h

/-- `compile` reads an optional template exactly where the reader splits it. -/
theorem findOptional_of_compile {s present absent : String}
    (h : Template.compile s = .ok (.optional present absent)) :
    findOptional s.toList 0 s.toList = .ok (some (present, absent)) := by
  unfold Template.compile at h
  split at h
  · cases h
  · split at h
    · cases hf : findOptional s.toList 0 s.toList with
      | error e =>
        rw [hf] at h
        cases h
      | ok res =>
        rw [hf] at h
        cases res with
        | none =>
          simp only [bind, Except.bind, Functor.map, Except.map] at h
          split at h <;> cases h
        | some pa =>
          simp only [bind, Except.bind, pure, Except.pure, Except.ok.injEq, Template.optional.injEq] at h
          obtain ⟨rfl, rfl⟩ := h
          rfl
    · cases h

/-- An optional template: the text before its optional parameter, the parameter, and at most
one `/` after the `?`; no parameter before it is followed by `?`. `present` drops the `?`,
`absent` the whole parameter, and is `/` when nothing is left. -/
theorem compile_eq_optional {w : List Char} {present absent : String}
    (h : Template.compile (String.ofList w) = .ok (.optional present absent)) :
    ∃ X P trailing, w = X ++ '/' :: ':' :: P ++ '?' :: trailing ∧ (trailing = [] ∨ trailing = ['/']) ∧
      (∀ x ∈ (':' :: P).getLast?, x ≠ '/' ∧ x ≠ '?') ∧ NoMarkBefore w X.length ∧
      present.toList = X ++ '/' :: ':' :: P ++ trailing ∧
      absent = if X ++ trailing = [] then "/" else String.ofList (X ++ trailing) := by
  have hf := findOptional_of_compile h
  rw [String.toList_ofList] at hf
  obtain ⟨X, r, len, trailing, rfl, hend, hvalid, hno, hp, ha⟩ := findOptional_eq_some _ 0 _ hf
  obtain ⟨P, hr, hlen, hlast⟩ := optionalParamEnd_spec r
  rw [hend] at hr hlen
  dsimp only at hr hlen
  subst hr hlen
  refine ⟨X, P, trailing, by simp, hvalid, hlast, hno, ?_, ?_⟩
  · rw [hp, String.toList_ofList]
    have : List.take (0 + X.length + 2 + P.length) (X ++ '/' :: ':' :: (P ++ '?' :: trailing)) =
        X ++ '/' :: ':' :: P := by
      rw [List.take_append, List.take_of_length_le (by omega),
        show 0 + X.length + 2 + P.length - X.length = P.length + 2 by omega]
      simp
    rw [this]
  · rw [ha]
    have : List.take (0 + X.length) (X ++ '/' :: ':' :: (P ++ '?' :: trailing)) = X := by simp
    rw [this]
    simp only [List.isEmpty_iff]

/-- A template none of whose parameters is followed by a `?` that ends it, or that one `/`
follows, is not read as optional. -/
theorem compile_ne_optional {w : List Char}
    (h : ∀ X r t, w = X ++ '/' :: ':' :: r → (optionalParamEnd r).2 = '?' :: t → t ≠ [] ∧ t ≠ ['/'])
    (present absent : String) : Template.compile (String.ofList w) ≠ .ok (.optional present absent) := by
  intro hc
  have hf := findOptional_of_compile hc
  rw [String.toList_ofList] at hf
  obtain ⟨X, r, len, trailing, hw, hend, hvalid, -⟩ := findOptional_eq_some _ 0 _ hf
  have := h X r trailing hw (by rw [hend])
  rcases hvalid with rfl | rfl
  · exact this.1 rfl
  · exact this.2 rfl

/-- A `?` followed by at most one `/` cannot end a text whose character before its final `/`, if
any, is no `/` and no `?`. -/
theorem not_mark_suffix {Y T t : List Char} {x : Char} (hY : Y.getLast? = some x) (hx : x ≠ '/' ∧ x ≠ '?')
    (hT : T = [] ∨ T = ['/']) (ht : t = [] ∨ t = ['/']) : ¬ '?' :: t <:+ Y ++ T := by
  rintro ⟨Z, hZ⟩
  obtain ⟨Y', rfl⟩ : ∃ Y', Y = Y' ++ [x] := ⟨Y.dropLast, (List.dropLast_append_getLast? x hY).symm⟩
  -- read backwards, the `?` (or the `/` after it) meets the last character of `Y`
  have hrev := congrArg List.reverse hZ
  rcases hT with rfl | rfl <;> rcases ht with rfl | rfl <;> simp at hrev
  · exact hx.2 hrev.1.symm
  · exact hx.1 hrev.1.symm
  · exact hx.2 hrev.1.symm

/-- No parameter of a text whose last character before at most one final `/` is no `/` and no
`?` is followed by a `?` that ends the text, or that one `/` follows. -/
theorem no_mark_at_end {Y T : List Char} {x : Char} (hY : Y.getLast? = some x) (hx : x ≠ '/' ∧ x ≠ '?')
    (hT : T = [] ∨ T = ['/']) :
    ∀ X r t, Y ++ T = X ++ '/' :: ':' :: r → (optionalParamEnd r).2 = '?' :: t → t ≠ [] ∧ t ≠ ['/'] := by
  intro X r t hw hend
  obtain ⟨P, hr, -, -⟩ := optionalParamEnd_spec r
  rw [hend] at hr
  -- the `?` and what follows it end the text
  have hsuf : '?' :: t <:+ Y ++ T := ⟨X ++ '/' :: ':' :: P, by rw [hw, hr]; simp⟩
  constructor
  · rintro rfl
    exact not_mark_suffix hY hx hT (.inl rfl) hsuf
  · rintro rfl
    exact not_mark_suffix hY hx hT (.inr rfl) hsuf

/-- A prefix of a text, no longer than `n`, followed by at most one `/`, has no parameter
followed by `?` when the text has none before position `n`: the parameter, its `?` and all that
decides between them lie in the prefix. -/
theorem prefix_has_no_mark {w A T : List Char} {n : Nat} (hno : NoMarkBefore w n) (hA : A <+: w)
    (hn : A.length ≤ n) (hT : T = [] ∨ T = ['/']) :
    ∀ X r t, A ++ T = X ++ '/' :: ':' :: r → (optionalParamEnd r).2 ≠ '?' :: t := by
  intro X r t hw hend
  -- the `/:` lies in `A`, since `T` holds no `:`
  obtain ⟨a, rfl, rfl⟩ : ∃ a, A = X ++ '/' :: ':' :: a ∧ r = a ++ T := by
    rcases List.append_eq_append_iff.1 hw with ⟨a', -, hT'⟩ | ⟨c', hA', hc'⟩
    · have hlen := congrArg List.length hT'
      rcases hT with rfl | rfl <;> simp only [List.length_append, List.length_cons, List.length_nil] at hlen <;>
        omega
    · match c', hc' with
      | [], hc' => rcases hT with rfl | rfl <;> simp at hc'
      | [_], hc' => rcases hT with rfl | rfl <;> simp at hc'
      | _ :: _ :: a, hc' =>
        simp only [List.cons_append, List.cons.injEq] at hc'
        obtain ⟨rfl, rfl, rfl⟩ := hc'
        exact ⟨a, hA', rfl⟩
  obtain ⟨y, rfl⟩ := hA
  have hq : '?' ∉ T := by rcases hT with rfl | rfl <;> simp
  obtain ⟨s', hs'⟩ := optionalParamEnd_frame hend hq y
  have hlt : X.length < n := by
    simp only [List.length_append, List.length_cons] at hn
    omega
  exact hno X.length (a ++ y) hlt (by simp) s' hs'

/-- The present variant of an optional template, normalised, is not optional: its parameter
ends it, save for one `/`. -/
theorem compile_normalize_present_ne_optional (c : Config) {X P trailing : List Char}
    (hw : c.ignoreDuplicateSlashes = true → NoDoubleSlash (X ++ '/' :: ':' :: P ++ '?' :: trailing))
    (hlast : ∀ x ∈ (':' :: P).getLast?, x ≠ '/' ∧ x ≠ '?') (ht : trailing = [] ∨ trailing = ['/'])
    (a b : String) :
    Template.compile (c.normalize (String.ofList (X ++ '/' :: ':' :: P ++ trailing))) ≠
      .ok (.optional a b) := by
  obtain ⟨x, hxP⟩ : ∃ x, (':' :: P).getLast? = some x := Option.isSome_iff_exists.1 (by simp)
  have hx : (X ++ '/' :: ':' :: P).getLast? = some x := by
    rw [List.getLast?_append, List.getLast?_cons_cons, hxP, Option.some_or]
  have hlastY : ∀ y ∈ (X ++ '/' :: ':' :: P).getLast?, y ≠ '/' := fun y hy => by
    rw [hx, Option.mem_some_iff] at hy
    exact hy ▸ (hlast x (Option.mem_def.2 hxP)).1
  have hnd : c.ignoreDuplicateSlashes = true → NoDoubleSlash (X ++ '/' :: ':' :: P ++ trailing) :=
    fun hdup => NoDoubleSlash.append_slash (List.IsChain.left_of_append (hw hdup)) hlastY ht
  obtain ⟨T', hT', hvalid⟩ := normalize_append_slash_of_getLast c hnd hlastY ht
  have hnorm : c.normalize (String.ofList (X ++ '/' :: ':' :: P ++ trailing)) =
      String.ofList (X ++ '/' :: ':' :: P ++ T') := by
    rw [← hT', String.ofList_toList]
  rw [hnorm]
  exact compile_ne_optional (no_mark_at_end hx (hlast x (Option.mem_def.2 hxP)) hvalid) a b

/-- The absent variant of an optional template, normalised, is not optional: it is a prefix of
the template before its first parameter followed by `?`. -/
theorem compile_normalize_absent_ne_optional (c : Config) {w A T : List Char} {n : Nat}
    (hno : NoMarkBefore w n) (hA : A <+: w) (hn : A.length ≤ n) (hT : T = [] ∨ T = ['/'])
    (hnd : c.ignoreDuplicateSlashes = true → NoDoubleSlash (A ++ T)) (a b : String) :
    Template.compile (c.normalize (String.ofList (A ++ T))) ≠ .ok (.optional a b) := by
  obtain ⟨A', T', hA'T', hA', hT'⟩ := normalize_append_slash c hnd hT
  have hnorm : c.normalize (String.ofList (A ++ T)) = String.ofList (A' ++ T') := by
    rw [← hA'T', String.ofList_toList]
  rw [hnorm]
  refine compile_ne_optional (fun X r t hw hend => ?_) a b
  exact absurd hend (prefix_has_no_mark hno (hA'.trans hA) (hA'.length_le.trans hn) hT' X r t hw)

/-- The absent variant is `/` exactly when nothing precedes the optional parameter, or a single
`/` does and nothing follows the `?`. -/
theorem absent_eq_root_iff {X trailing : List Char} (ht : trailing = [] ∨ trailing = ['/']) :
    (if X ++ trailing = [] then "/" else String.ofList (X ++ trailing)) = "/" ↔
      X = [] ∨ (X = ['/'] ∧ trailing = []) := by
  split
  · rename_i h
    simp [List.append_eq_nil_iff.1 h]
  · rename_i h
    rw [← String.toList_inj, String.toList_ofList, show ("/" : String).toList = ['/'] from rfl,
      List.append_eq_singleton_iff]
    rcases ht with rfl | rfl <;> simp_all

/-! ## Adding an optional template -/

namespace Router

variable {α : Type}

/-- Adding a template that is not optional compiles and inserts it once, whatever the fuel for
optional expansions. -/
theorem addWithin_succ_of_not_optional (r : Router α) (method pattern : String) (value : α)
    (h : ∀ a b, Template.compile (r.config.normalize pattern) ≠ .ok (.optional a b)) (m n : Nat) :
    r.addWithin method pattern value (m + 1) = r.addWithin method pattern value (n + 1) := by
  cases hc : Template.compile (r.config.normalize pattern) with
  | error e => simp only [addWithin, hc]
  | ok t =>
    cases t with
    | optional a b => exact absurd hc (h a b)
    | route route => simp only [addWithin, hc]

/-- Adding an optional template whose variants are not optional adds the present variant and,
when that succeeds, the absent one. -/
theorem add_of_compile_optional (r : Router α) (method pattern : String) (value : α)
    {present absent : String}
    (h : Template.compile (r.config.normalize pattern) = .ok (.optional present absent))
    (hp : ∀ a b, Template.compile (r.config.normalize present) ≠ .ok (.optional a b))
    (ha : ∀ a b, Template.compile (r.config.normalize absent) ≠ .ok (.optional a b)) :
    r.add method pattern value = match r.add method present value with
      | (r₁, .ok ()) => r₁.add method absent value
      | (r₁, .error e) => (r₁, .error e) := by
  -- the template is not empty, so the expansion leaves fuel for each variant
  obtain ⟨n, hn⟩ : ∃ n, pattern.length = n + 1 := by
    refine Nat.exists_eq_succ_of_ne_zero fun h0 => ?_
    have hlen := (r.config.normalize pattern).length_toList ▸ length_normalize_le r.config pattern
    rw [h0, Nat.le_zero, List.length_eq_zero_iff] at hlen
    rw [Template.compile, hlen] at h
    cases h
  rw [add, hn, addWithin, h]
  dsimp only
  rw [add, addWithin_succ_of_not_optional r method present value hp n present.length]
  rcases hpresent : r.addWithin method present value (present.length + 1) with ⟨r₁, _ | ⟨⟩⟩
  · rfl
  · -- the present variant leaves the configuration as it was
    have hcfg : r₁.config = r.config := by
      obtain ⟨es, hes⟩ := addWithin_inserts method value (present.length + 1) r present
      rw [hpresent] at hes
      exact hes.config
    dsimp only
    rw [add, addWithin_succ_of_not_optional r₁ method absent value (hcfg ▸ ha) n absent.length]

end Router

/-- An optional template expands one level: neither of its variants, normalised, is optional
again, so `Router.add` adds the present variant and then, if that succeeded, the absent one, each
as one route. The variants are the template with its `?` dropped and the template without its
optional parameter (`/` when nothing is left); the absent variant is `/` exactly when nothing
precedes the optional parameter, or a single `/` does and nothing follows the `?`. -/
theorem optional_expands_one_level (c : Config) (p present absent : String)
    (h : Template.compile (c.normalize p) = .ok (.optional present absent)) :
    (∀ a b, Template.compile (c.normalize present) ≠ .ok (.optional a b)) ∧
    (∀ a b, Template.compile (c.normalize absent) ≠ .ok (.optional a b)) ∧
    (∃ pre param trailing, (c.normalize p).toList = pre ++ '/' :: ':' :: param ++ '?' :: trailing ∧
      (trailing = [] ∨ trailing = ['/']) ∧ present.toList = pre ++ '/' :: ':' :: param ++ trailing ∧
      absent = (if pre ++ trailing = [] then "/" else String.ofList (pre ++ trailing)) ∧
      (absent = "/" ↔ pre = [] ∨ (pre = ['/'] ∧ trailing = []))) ∧
    ∀ {α : Type} (r : Router α) (method : String) (value : α), r.config = c →
      r.add method p value = match r.add method present value with
        | (r₁, .ok ()) => r₁.add method absent value
        | (r₁, .error e) => (r₁, .error e) := by
  have hw : Template.compile (String.ofList (c.normalize p).toList) = .ok (.optional present absent) := by
    rwa [String.ofList_toList]
  obtain ⟨X, P, trailing, hwX, ht, hlast, hno, hpresent, habsent⟩ := compile_eq_optional hw
  have hnd : c.ignoreDuplicateSlashes = true → NoDoubleSlash (X ++ '/' :: ':' :: P ++ '?' :: trailing) :=
    fun hdup => hwX ▸ noDoubleSlash_normalize hdup p
  have hp : ∀ a b, Template.compile (c.normalize present) ≠ .ok (.optional a b) := by
    rw [← String.ofList_toList (s := present), hpresent]
    exact compile_normalize_present_ne_optional c hnd hlast ht
  -- the absent variant is the text before the optional parameter, or `/`, with at most one `/`
  have ha : ∀ a b, Template.compile (c.normalize absent) ≠ .ok (.optional a b) := by
    obtain ⟨A, T, hAT, hA, hT, hAnd⟩ : ∃ A T, absent = String.ofList (A ++ T) ∧ A <+: X ∧
        (T = [] ∨ T = ['/']) ∧ (c.ignoreDuplicateSlashes = true → NoDoubleSlash (A ++ T)) := by
      split at habsent
      · exact ⟨[], ['/'], habsent, List.nil_prefix, .inr rfl, fun _ => List.isChain_singleton _⟩
      · refine ⟨X, trailing, habsent, List.prefix_refl X, ht, fun hdup => ?_⟩
        have hX : NoDoubleSlash (X ++ '/' :: ':' :: (P ++ '?' :: trailing)) := by simpa using hnd hdup
        exact NoDoubleSlash.append_slash (List.IsChain.left_of_append hX) hX.getLast_ne_slash ht
    have hXw : X <+: (c.normalize p).toList := by
      rw [hwX, List.append_assoc]
      exact List.prefix_append _ _
    rw [hAT]
    exact compile_normalize_absent_ne_optional c hno (hA.trans hXw) hA.length_le hT hAnd
  refine ⟨hp, ha, ⟨X, P, trailing, hwX, ht, hpresent, habsent, habsent ▸ absent_eq_root_iff ht⟩, ?_⟩
  intro α r method value hc
  subst hc
  exact Router.add_of_compile_optional r method p value h hp ha

/-- `/items/:id?` stands for `/items/:id` and `/items`, and `/items` is not optional again. -/
theorem items_id_expands_one_level :
    Template.compile (({} : Config).normalize "/items/:id?") = .ok (.optional "/items/:id" "/items") ∧
      ∀ a b, Template.compile (({} : Config).normalize "/items") ≠ .ok (.optional a b) :=
  have h : Template.compile (({} : Config).normalize "/items/:id?") =
      .ok (.optional "/items/:id" "/items") := by decide +kernel
  ⟨h, (optional_expands_one_level {} _ _ _ h).2.1⟩

/-- When duplicate slashes count, the optional parameter of `//:a?` follows a `/`, and its absent
variant is still `/`. -/
theorem slash_before_optional_absent_root :
    (({} : Config).normalize "//:a?").toList = ['/'] ++ '/' :: ':' :: ['a'] ++ '?' :: [] ∧
      Template.compile (({} : Config).normalize "//:a?") = .ok (.optional "//:a" "/") := by
  decide +kernel

end Routing
