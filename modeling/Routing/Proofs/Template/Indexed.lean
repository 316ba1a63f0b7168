import Routing.Proofs.Text.Slicing
import Routing.Proofs.Template.Optional
import Routing.Template.PathRegex
/-!
# Reading a template at byte indices

The template reader of the library reads characters. The reader it stands for reads a template
by byte index: `tokenize` keeps the index `i` of the body, `parse_param` the index `j` of a
span, `closing_brace` scans bytes and counts the braces open, `split_optional` jumps from one
`/:` to the next, and `segment_regex` keeps the index `i` of a segment of `to_regex`. Here each of these loops is written as it runs over the bytes, with every slice
checked (`charsFrom`, `slice`): a slice at an index past the end or inside a character, or
`depth -= 1` at zero, answers `none`, the panic.

Each byte loop answers `some` of what the character reader answers (`closingBrace_eq`,
`parseParam_eq`, `tokenize_eq`, `splitOptional_eq`, `compile_eq`, `segmentRegex_eq`): it never
panics, and every index it slices at is a character boundary, the byte length of the characters
the character reader has read. The argument is one simulation per loop: at each turn the byte
index starts the suffix the character reader is at. Byte tests against ASCII characters
(`bytes.get(j) == Some(&b'{')`) read the next character (`byteAt_eq_ascii_iff`); byte loops over
names stop where the character reader stops (`nameEnd_eq`), and the brace scan steps over the
bytes of a longer character as over one (`braceScan_high`).
-/

namespace Routing

theorem Except.map_ok {ε α β : Type} (f : α → β) (a : α) :
    (Except.map f (.ok a) : Except ε β) = .ok (f a) := rfl

namespace Indexed

open Text Regex

/-! ## `closing_brace` -/

/-- The loop of `closing_brace` over the bytes from index `i`, with `depth` braces open: the index
of the `}` that closes the first brace, or `none` inside when the bytes end first. A backslash
skips the byte after it. The outer `none` is `depth -= 1` below zero. -/
def braceScan : List Nat → Nat → Nat → Option (Option Nat)
  | [], _, _ => some none
  | b :: rest, i, depth =>
    if b = 0x5C then
      match rest with
      | [] => some none
      | _ :: rest => braceScan rest (i + 2) depth
    else if b = 0x7B then braceScan rest (i + 1) (depth + 1)
    else if b = 0x7D then
      if depth = 0 then none
      else if depth - 1 = 0 then some (some i)
      else braceScan rest (i + 1) (depth - 1)
    else braceScan rest (i + 1) depth

/-- `closing_brace(text, start)`: the index of the `}` closing the `{` at byte `start`. -/
def closingBrace (text : List Char) (start : Nat) : Option (Option Nat) :=
  braceScan ((bytes text).drop (start + 1)) (start + 1) 1

/-! ## `parse_param` -/

/-- The bytes that end a parameter name in `parse_param`: `{ - . / * :`. -/
def isNameStop (b : Nat) : Bool :=
  b == 0x7B || b == 0x2D || b == 0x2E || b == 0x2F || b == 0x2A || b == 0x3A

/-- The byte loop of `parse_param` over a name: the index of the first byte from `j` on that ends
a name, or the end of the text. -/
def nameEnd (body : List Char) (j : Nat) : Nat :=
  j + (((bytes body).drop j).takeWhile fun b => !isNameStop b).length

/-- The loop of `parse_param` over the literal after a parameter, from byte `j`: the literal and
the index where it stops, at a `/`, a `*`, a single `:` or the end; `::` is read as `:`. -/
def literalFrom (body : List Char) : Nat → Nat → Option (List Char × Nat)
  | 0, _ => none
  | fuel + 1, j => do
    match ← charsFrom body j with
    | [] => pure ([], j)
    | ch :: _ =>
      if ch = '/' ∨ ch = '*' then pure ([], j)
      else if ch = ':' then
        if byteAt body (j + 1) = some 0x3A then do
          let (lit, e) ← literalFrom body fuel (j + 2)
          pure (':' :: lit, e)
        else pure ([], j)
      else do
        let (lit, e) ← literalFrom body fuel (j + ch.utf8Size)
        pure (ch :: lit, e)

/-- The group of one parameter in `parse_param`, its name ending at byte `j`: its constraint, or
the group an unconstrained parameter matches; and the index after it. -/
def groupAt (pattern : String) (body : List Char) (j : Nat) (st : SpanRegex) :
    Option (Except RouteError (SpanRegex × Nat)) :=
  if byteAt body j = some 0x7B then do
    match ← closingBrace body j with
    | none => pure (.error (.unbalancedConstraint pattern))
    | some close => do
      let inner ← slice body (j + 1) close
      pure (.ok ({ st with
        body := st.body ++ "(" ++ String.ofList (trimAnchors inner) ++ ")"
        needed := true
        lazyNext := true }, close + 1))
  else if st.lazyNext || st.separator.isEmpty then
    pure (.ok ({ st with body := st.body ++ "(.*?)", lazyNext := false }, j))
  else pure (.ok ({ st with body := st.body ++ separatedGroup st.separator }, j))

/-- The loop of `parse_param` from byte `j`, the start of a parameter's name: the span's regex
state, the literal after its last parameter, and the index just past the span. -/
def spanFrom (pattern : String) (body : List Char) : Nat → Nat → SpanRegex →
    Option (Except RouteError (SpanRegex × List Char × Nat))
  | 0, _, _ => none
  | fuel + 1, j, st => do
    let stop := nameEnd body j
    let name ← slice body j stop
    match ← groupAt pattern body stop { st with names := st.names ++ [String.ofList name] } with
    | .error e => pure (.error e)
    | .ok (st, j) => do
      let (lit, j) ← literalFrom body (String.utf8Len body + 1) j
      let sep := quote (String.ofList lit)
      let st := { st with separator := sep, body := st.body ++ sep, needed := st.needed || !lit.isEmpty }
      if byteAt body j = some 0x3A then spanFrom pattern body fuel (j + 1) { st with needed := true }
      else pure (.ok (st, lit, j))

/-- `parse_param(pattern, body, start)`, the `:` at byte `start`: the span, its parameter names,
and the index just past it. -/
def parseParam (pattern : String) (body : List Char) (start : Nat) :
    Option (Except RouteError (ParamSpan × List String × Nat)) := do
  match ← spanFrom pattern body (String.utf8Len body + 1) (start + 1) {} with
  | .error e => pure (.error e)
  | .ok (st, lit, j) => do
    let source ← slice body start j
    pure (.ok ({
      regex := if st.needed then some ("^" ++ st.body ++ "$") else none
      suffix := if lit.isEmpty then none else some (String.ofList lit)
      source := String.ofList source }, st.names, j))

/-! ## `tokenize` -/

/-- The loop of `tokenize` from byte `i` of the body, `lit` the literal read since the last
token. -/
def tokensFrom (pattern : String) (body : List Char) : Nat → Nat → List Char → List Token →
    List String → Option (Except RouteError Route)
  | 0, _, _, _, _ => none
  | fuel + 1, i, lit, acc, names => do
    match ← charsFrom body i with
    | [] => pure (.ok { tokens := flushText lit acc, params := names })
    | ch :: _ =>
      if ch = ':' then
        if byteAt body (i + 1) = some 0x3A then
          tokensFrom pattern body fuel (i + 2) (lit ++ [':']) acc names
        else do
          match ← parseParam pattern body i with
          | .error e => pure (.error e)
          | .ok (span, spanNames, e) =>
            tokensFrom pattern body fuel e [] (flushText lit acc ++ [.param span]) (names ++ spanNames)
      else if ch = '*' then
        if i + 1 ≠ String.utf8Len body then pure (.error (.wildcardNotLast pattern))
        else tokensFrom pattern body fuel (i + 1) [] (flushText lit acc ++ [.wildcard]) (names ++ ["*"])
      else tokensFrom pattern body fuel (i + ch.utf8Size) (lit ++ [ch]) acc names

/-- `tokenize(pattern)`: the body is the template after one leading `/`. -/
def tokenize (pattern : String) : Option (Except RouteError Route) :=
  let body := match pattern.toList with
    | '/' :: t => t
    | cs => cs
  tokensFrom pattern body (String.utf8Len body + 1) 0 [] [] []

/-! ## `split_optional` -/

/-- `str::find("/:")`: the byte offset of the first `/:`. -/
def findSlashColon : List Char → Option Nat
  | '/' :: ':' :: _ => some 0
  | c :: r => (findSlashColon r).map (c.utf8Size + ·)
  | [] => none

/-- `param_end` in `split_optional`: past the constraint after the name when one closes there,
else the name's end. -/
def optionalParamEndAt (whole : List Char) (nameEnd : Nat) : Option Nat :=
  if byteAt whole nameEnd = some 0x7B then
    (closingBrace whole nameEnd).map fun close => match close with
      | some close => close + 1
      | none => nameEnd
  else pure nameEnd

/-- The loop of `split_optional` from byte `search`: the two templates an optional parameter
stands for, when a `/:name?` comes. -/
def optionalFrom (whole : List Char) : Nat → Nat → Option (Except RouteError (Option (String × String)))
  | 0, _ => none
  | fuel + 1, search => do
    match findSlashColon (← charsFrom whole search) with
    | none => pure (.ok none)
    | some offset =>
      let start := search + offset
      let paramEnd ← optionalParamEndAt whole (← findFrom endsOptionalName whole (start + 2))
      if byteAt whole paramEnd = some 0x3F then do
        let trailing ← charsFrom whole (paramEnd + 1)
        if !trailing.isEmpty && trailing != ['/'] then
          pure (.error (.optionalNotLast (String.ofList whole)))
        else do
          let present ← slice whole 0 paramEnd
          let absent ← slice whole 0 start
          let absent := absent ++ trailing
          pure (.ok (some (String.ofList (present ++ trailing),
            if absent.isEmpty then "/" else String.ofList absent)))
      else optionalFrom whole fuel (start + 2)

/-- `split_optional(pattern)`. -/
def splitOptional (pattern : String) : Option (Except RouteError (Option (String × String))) :=
  optionalFrom pattern.toList (String.utf8Len pattern.toList + 1) 0

/-- `compile(pattern)` at byte indices. -/
def compile (pattern : String) : Option (Except RouteError Template) :=
  match pattern.toList with
  | [] => pure (.error .empty)
  | c :: _ =>
    if c = '/' ∨ c = '*' then do
      match ← splitOptional pattern with
      | .error e => pure (.error e)
      | .ok (some (present, absent)) => pure (.ok (.optional present absent))
      | .ok none => (fun r => Template.route <$> r) <$> tokenize pattern
    else pure (.error (.invalidStart pattern))

/-! ## `segment_regex` -/

/-- The bytes `segment_regex` takes into a parameter name: ASCII letters, digits and `_`. -/
def isNameByte (b : Nat) : Bool :=
  (0x30 ≤ b && b ≤ 0x39) || (0x41 ≤ b && b ≤ 0x5A) || (0x61 ≤ b && b ≤ 0x7A) || b == 0x5F

/-- The group of a parameter in `segment_regex`, from byte `j` after its name and mark: its
constraint when a `{` comes, else a segment; `next` goes on from the index after it with the
regex so far. -/
def segmentGroup (pattern : String) (seg : List Char) (j : Nat) (out : String)
    (next : Nat → String → Option (Except RouteError (String × List String))) :
    Option (Except RouteError (String × List String)) :=
  if byteAt seg j = some 0x7B then do
    match ← closingBrace seg j with
    | none => pure (.error (.unbalancedConstraint pattern))
    | some close => do
      let inner ← slice seg (j + 1) close
      next (close + 1) (out ++ "(" ++ String.ofList (trimAnchors inner) ++ ")")
  else next j (out ++ "([^/]+)")

/-- The loop of `segment_regex` from byte `i` of a segment, `out` the regex so far and `names` the
parameter names read. -/
def segmentFrom (pattern : String) (isLast : Bool) (seg : List Char) :
    Nat → Nat → String → List String → Option (Except RouteError (String × List String))
  | 0, _, _, _ => none
  | fuel + 1, i, out, names => do
    match ← charsFrom seg i with
    | [] => pure (.ok (out, names))
    | ch :: _ =>
      let nameLen := (((bytes seg).drop (i + ch.utf8Size)).takeWhile isNameByte).length
      if ch ≠ ':' ∨ nameLen = 0 then do
        let piece ← slice seg i (i + ch.utf8Size)
        segmentFrom pattern isLast seg fuel (i + ch.utf8Size) (out ++ quote (String.ofList piece)) names
      else do
        let name ← slice seg (i + 1) (i + 1 + nameLen)
        let names := names ++ [String.ofList name]
        let j := i + 1 + nameLen
        if byteAt seg j = some 0x3F ∧ isLast = false then pure (.error (.optionalNotLast pattern))
        else
          segmentGroup pattern seg (if byteAt seg j = some 0x3F then j + 1 else j) out
            fun j out => segmentFrom pattern isLast seg fuel j out names

/-- `segment_regex(pattern, segment, is_last)`: the segment's first `{`, if any, must close; then
the loop from byte 0. -/
def segmentRegex (pattern : String) (isLast : Bool) (seg : List Char) :
    Option (Except RouteError (String × List String)) := do
  let balanced ← match findChar (· == '\x7b') seg with
    | some openAt => (closingBrace seg openAt).map Option.isSome
    | none => pure true
  if balanced then segmentFrom pattern isLast seg (String.utf8Len seg + 1) 0 "" []
  else pure (.error (.unbalancedConstraint pattern))

/-! ## Agreement of `closing_brace` -/

theorem braceScan_cons (b : Nat) (rest : List Nat) (i depth : Nat) :
    braceScan (b :: rest) i depth =
      if b = 0x5C then
        match rest with
        | [] => some none
        | _ :: rest => braceScan rest (i + 2) depth
      else if b = 0x7B then braceScan rest (i + 1) (depth + 1)
      else if b = 0x7D then
        if depth = 0 then none
        else if depth - 1 = 0 then some (some i)
        else braceScan rest (i + 1) (depth - 1)
      else braceScan rest (i + 1) depth := by
  cases rest <;> rfl

/-- The brace scan steps over bytes from `0x80` up as over any byte that is no brace. -/
theorem braceScan_high : ∀ (hi bs : List Nat) (i depth : Nat), (∀ b ∈ hi, 0x80 ≤ b) →
    braceScan (hi ++ bs) i depth = braceScan bs (i + hi.length) depth
  | [], _, _, _, _ => rfl
  | b :: hi, bs, i, depth, h => by
    have hb := h b List.mem_cons_self
    rw [List.cons_append, braceScan_cons, if_neg (by omega), if_neg (by omega), if_neg (by omega),
      braceScan_high hi bs (i + 1) depth fun b hb => h b (List.mem_cons_of_mem _ hb)]
    congr 1
    simp only [List.length_cons]
    omega

/-- A character that is no backslash and no brace is stepped over whole. -/
theorem braceScan_other {c : Char} (hs : c ≠ '\\') (ho : c ≠ '\x7b') (hc : c ≠ '\x7d')
    (rest : List Char) (i depth : Nat) :
    braceScan (bytes (c :: rest)) i depth = braceScan (bytes rest) (i + c.utf8Size) depth := by
  by_cases hlt : c.toNat < 0x80
  · have ne : ∀ d : Char, c ≠ d → c.toNat ≠ d.toNat := fun d h e => h (Char.toNat_inj.1 e)
    have h₁ : c.toNat ≠ 0x5C := ne _ hs
    have h₂ : c.toNat ≠ 0x7B := ne _ ho
    have h₃ : c.toNat ≠ 0x7D := ne _ hc
    rw [bytes_cons, utf8Encode_of_lt hlt, List.singleton_append, braceScan_cons,
      if_neg h₁, if_neg h₂, if_neg h₃, utf8Size_of_lt hlt]
  · rw [bytes_cons, braceScan_high _ _ _ _ fun b hb => le_of_mem_utf8Encode (Nat.not_lt.1 hlt) hb,
      length_utf8Encode]

/-- A backslash skips the character after it, whatever its length. -/
theorem braceScan_escape (c : Char) (rest : List Char) (i depth : Nat) :
    braceScan (bytes ('\\' :: c :: rest)) i depth =
      braceScan (bytes rest) (i + 1 + c.utf8Size) depth := by
  obtain ⟨b, tl, henc⟩ := List.exists_cons_of_ne_nil
    (List.ne_nil_of_length_pos (by rw [length_utf8Encode]; exact c.utf8Size_pos))
  -- the bytes of `c` after its first are all from `0x80` up, or there are none
  have htl : ∀ x ∈ tl, 0x80 ≤ x := by
    intro x hx
    by_cases hlt : c.toNat < 0x80
    · rw [utf8Encode_of_lt hlt, List.cons.injEq] at henc
      rw [← henc.2] at hx
      cases hx
    · exact le_of_mem_utf8Encode (Nat.not_lt.1 hlt) (henc ▸ List.mem_cons_of_mem _ hx)
  have hlen : tl.length + 1 = c.utf8Size := by
    rw [← length_utf8Encode, henc, List.length_cons]
  have hbs : bytes ('\\' :: c :: rest) = 0x5C :: b :: (tl ++ bytes rest) := by
    rw [bytes_cons, bytes_cons, henc]
    rfl
  rw [hbs, braceScan_cons, if_pos rfl]
  dsimp only
  rw [braceScan_high _ _ _ _ htl]
  congr 1
  omega

theorem utf8Len_lt_of_closeBraceFrom {cs : List Char} {depth : Nat} {acc inner after : List Char}
    (h : closeBraceFrom cs depth acc = some (inner, after)) :
    String.utf8Len after < String.utf8Len cs := by
  have hs := closeBraceFrom_suffix cs depth acc inner after h
  cases cs with
  | nil => cases h
  | cons c cs =>
    have hle := String.utf8Len_le_of_suffix hs
    have := c.utf8Size_pos
    simp only [List.tail_cons] at hle
    simp only [String.utf8Len_cons]
    omega

/-- The brace scan over the bytes of `cs` answers where `closeBraceFrom` closes: the index of
its `}`, `i` counting from the start of `cs`; it never meets a `}` with no brace open. -/
theorem braceScan_bytes : ∀ (cs : List Char) (depth : Nat) (acc : List Char) (i : Nat),
    0 < depth → braceScan (bytes cs) i depth =
      some ((closeBraceFrom cs depth acc).map fun r =>
        i + String.utf8Len cs - (String.utf8Len r.2 + 1)) := by
  intro cs depth acc
  fun_induction closeBraceFrom cs depth acc with
  | case1 => intro i _; rfl
  | case2 => intro i _; rfl
  | case3 c rest depth acc ih =>
    intro i hd
    rw [braceScan_escape, ih _ hd]
    congr 1
    refine Option.map_congr fun r hr => ?_
    have := utf8Len_lt_of_closeBraceFrom hr
    simp only [String.utf8Len_cons]
    have : ('\\' : Char).utf8Size = 1 := rfl
    omega
  | case4 rest depth acc _ _ ih =>
    intro i hd
    rw [bytes_cons, show utf8Encode '\x7b' = [0x7B] from rfl, List.singleton_append, braceScan_cons,
      if_neg (by decide), if_pos rfl, ih _ (by omega)]
    congr 1
    refine Option.map_congr fun r hr => ?_
    have := utf8Len_lt_of_closeBraceFrom hr
    simp only [String.utf8Len_cons]
    have : ('\x7b' : Char).utf8Size = 1 := rfl
    omega
  | case5 rest depth acc hd =>
    intro i hpos
    rw [bytes_cons, show utf8Encode '\x7d' = [0x7D] from rfl, List.singleton_append, braceScan_cons,
      if_neg (by decide), if_neg (by decide), if_pos rfl, if_neg (by omega), if_pos (by omega)]
    simp only [Option.map_some, String.utf8Len_cons]
    have : ('\x7d' : Char).utf8Size = 1 := rfl
    congr 2
    omega
  | case6 rest depth acc hd _ _ _ ih =>
    intro i hpos
    rw [bytes_cons, show utf8Encode '\x7d' = [0x7D] from rfl, List.singleton_append, braceScan_cons,
      if_neg (by decide), if_neg (by decide), if_pos rfl, if_neg (by omega), if_neg (by omega),
      ih _ (by omega)]
    congr 1
    refine Option.map_congr fun r hr => ?_
    have := utf8Len_lt_of_closeBraceFrom hr
    simp only [String.utf8Len_cons]
    have : ('\x7d' : Char).utf8Size = 1 := rfl
    omega
  | case7 c rest depth acc hnil hcons ho hc ih =>
    intro i hd
    have hs : c ≠ '\\' := fun h => by
      cases rest with
      | nil => exact hnil h rfl
      | cons x y => exact hcons x y h rfl
    rw [braceScan_other hs ho hc, ih _ hd]
    congr 1
    refine Option.map_congr fun r hr => ?_
    have := utf8Len_lt_of_closeBraceFrom hr
    simp only [String.utf8Len_cons]
    omega

/-- `closing_brace` at the `{` that starts `'{' :: cs` answers where `closeBrace` closes: the
index of the `}`, after the bytes of the constraint. -/
theorem closingBrace_eq {text cs : List Char} {start : Nat}
    (h : charsFrom text start = some ('\x7b' :: cs)) :
    closingBrace text start = some ((closeBrace cs).map fun r => start + 1 + String.utf8Len r.1) := by
  have hcs : charsFrom text (start + 1) = some cs := charsFrom_step h
  rw [closingBrace, drop_bytes_of_charsFrom hcs, braceScan_bytes cs 1 [] _ Nat.one_pos]
  congr 1
  refine Option.map_congr fun r hr => ?_
  have hsp := closeBraceFrom_spells cs 1 [] r.1 r.2 hr
  simp only [List.reverse_nil, List.nil_append] at hsp
  rw [hsp]
  simp only [String.utf8Len_append, String.utf8Len_cons]
  have : ('\x7d' : Char).utf8Size = 1 := rfl
  omega

/-- Where `closeBrace` closes, the index `closing_brace` answers starts the `}`. -/
theorem charsFrom_closingBrace {text cs inner after : List Char} {start : Nat}
    (h : charsFrom text start = some ('\x7b' :: cs)) (hc : closeBrace cs = some (inner, after)) :
    charsFrom text (start + 1 + String.utf8Len inner) = some ('\x7d' :: after) := by
  have hsp := closeBraceFrom_spells cs 1 [] inner after hc
  simp only [List.reverse_nil, List.nil_append] at hsp
  exact charsFrom_append (hsp ▸ charsFrom_step h)

/-- Where `closeBrace` closes, the bytes between the `{` and the index `closing_brace` answers are
the constraint. -/
theorem slice_closingBrace {text cs inner after : List Char} {start : Nat}
    (h : charsFrom text start = some ('\x7b' :: cs)) (hc : closeBrace cs = some (inner, after)) :
    slice text (start + 1) (start + 1 + String.utf8Len inner) = some inner := by
  have hsp := closeBraceFrom_spells cs 1 [] inner after hc
  simp only [List.reverse_nil, List.nil_append] at hsp
  exact slice_eq (hsp ▸ charsFrom_step h) (charsFrom_closingBrace h hc)

/-! ## Agreement of `parse_param` -/

/-- A character compares to an ASCII character as its code to that character's code. -/
theorem toNat_beq (c d : Char) : (c.toNat == d.toNat) = (c == d) := by
  by_cases h : c = d <;> simp [h, Char.toNat_inj]

theorem isNameStop_toNat (c : Char) : isNameStop c.toNat = endsParamName c := by
  unfold isNameStop endsParamName
  rw [← toNat_beq c '\x7b', ← toNat_beq c '-', ← toNat_beq c '.', ← toNat_beq c '/',
    ← toNat_beq c '*', ← toNat_beq c ':']
  rfl

/-- The byte loop over a name stops where the name ends: at the first character that ends it. -/
theorem nameEnd_eq {body cs : List Char} {j : Nat} (h : charsFrom body j = some cs) :
    nameEnd body j = j + String.utf8Len (cs.takeWhile (!endsParamName ·)) := by
  have hstop : ∀ b, 0x80 ≤ b → (!isNameStop b) = true := fun b hb => by
    simp only [isNameStop, Bool.not_eq_true', Bool.or_eq_false_iff, beq_eq_false_iff_ne]
    omega
  rw [nameEnd, drop_bytes_of_charsFrom h, takeWhile_bytes_of_high _ hstop]
  simp only [isNameStop_toNat]

theorem charsFrom_nameEnd {body cs : List Char} {j : Nat} (h : charsFrom body j = some cs) :
    charsFrom body (nameEnd body j) = some (cs.dropWhile (!endsParamName ·)) := by
  rw [nameEnd_eq h]
  exact charsFrom_append ((List.takeWhile_append_dropWhile).symm ▸ h)

/-- The loop over a span's literal reads what `spanLiteral` reads, and stops at the index where
the rest starts. -/
theorem literalFrom_eq {body : List Char} : ∀ (cs : List Char) (fuel j : Nat),
    charsFrom body j = some cs → cs.length < fuel →
      ∃ e, literalFrom body fuel j = some ((spanLiteral cs).1, e) ∧
        charsFrom body e = some (spanLiteral cs).2 := by
  intro cs
  fun_induction spanLiteral cs with
  | case1 =>
    intro fuel j h hf
    obtain ⟨fuel, rfl⟩ : ∃ f, fuel = f + 1 := ⟨fuel - 1, by omega⟩
    exact ⟨j, by simp [literalFrom, h], h⟩
  | case2 r l rest hsl ih =>
    intro fuel j h hf
    obtain ⟨fuel, rfl⟩ : ∃ f, fuel = f + 1 := ⟨fuel - 1, by simp at hf; omega⟩
    -- `::` is read as `:`, two bytes on
    have h₁ : charsFrom body (j + 1) = some (':' :: r) := charsFrom_step h
    have h₂ : charsFrom body (j + 1 + 1) = some r := charsFrom_step h₁
    have hb : byteAt body (j + 1) = some 0x3A := (byteAt_eq_ascii_iff (a := ':') (by decide) h₁).2 rfl
    obtain ⟨e, he, hce⟩ := ih fuel (j + 1 + 1) h₂ (by simp at hf; omega)
    rw [hsl] at he hce
    exact ⟨e, by simp [literalFrom, h, hb, he], hce⟩
  | case3 c r hcc hc =>
    intro fuel j h hf
    obtain ⟨fuel, rfl⟩ : ∃ f, fuel = f + 1 := ⟨fuel - 1, by simp at hf; omega⟩
    refine ⟨j, ?_, h⟩
    rcases hc with rfl | rfl | rfl
    · simp [literalFrom, h]
    · simp [literalFrom, h]
    · -- a single `:` chains the next parameter: the byte after it is no `:`
      have h₁ : charsFrom body (j + 1) = some r := charsFrom_step h
      have hb : byteAt body (j + 1) ≠ some 0x3A := fun hb => by
        have := (byteAt_eq_ascii_iff (a := ':') (by decide) h₁).1 hb
        cases r with
        | nil => cases this
        | cons d r =>
          simp only [List.head?_cons, Option.some.injEq] at this
          exact hcc r rfl (this ▸ rfl)
      simp [literalFrom, h, hb]
  | case4 c r hcc hc l rest hsl ih =>
    intro fuel j h hf
    obtain ⟨fuel, rfl⟩ : ∃ f, fuel = f + 1 := ⟨fuel - 1, by simp at hf; omega⟩
    obtain ⟨e, he, hce⟩ := ih fuel (j + c.utf8Size) (charsFrom_step h) (by simp at hf; omega)
    rw [hsl] at he hce
    have h₁ : ¬(c = '/' ∨ c = '*') := fun h' => hc (h'.elim .inl (.inr ∘ .inl))
    have h₂ : c ≠ ':' := fun h' => hc (.inr (.inr h'))
    exact ⟨e, by simp [literalFrom, h, h₁, h₂, he], hce⟩

/-- The group after a name, read from byte `j`, is what `readGroup` reads, and ends where the
rest `readGroup` leaves starts. -/
theorem groupAt_eq (pattern : String) {body afterName : List Char} {j : Nat} (st : SpanRegex)
    (h : charsFrom body j = some afterName) :
    groupAt pattern body j st = some ((readGroup pattern afterName st).map fun r =>
      (r.1, String.utf8Len body - String.utf8Len r.2)) := by
  have hj : j = String.utf8Len body - String.utf8Len afterName := by
    have := le_of_charsFrom h
    omega
  by_cases hb : byteAt body j = some 0x7B
  · -- a constraint: the brace scan closes where `closeBrace` does
    obtain ⟨t, rfl⟩ := (byteAt_eq_ascii_iff_cons (a := '\x7b') (by decide) h).1 hb
    rw [groupAt, if_pos hb, closingBrace_eq h]
    cases hc : closeBrace t with
    | none =>
      simp only [readGroup, hc, Option.map_none]
      rfl
    | some r =>
      obtain ⟨inner, after⟩ := r
      have hend := le_of_charsFrom (charsFrom_step (charsFrom_closingBrace h hc))
      have : ('\x7d' : Char).utf8Size = 1 := rfl
      simp only [Option.map_some, Option.bind_eq_bind, Option.bind_some, slice_closingBrace h hc,
        readGroup, hc, Except.map, pure, Except.pure]
      simp only [this] at hend
      congr 3
      omega
  · -- no constraint: the name's group, at the same index
    have hne : ∀ t, afterName ≠ '\x7b' :: t := fun t ht =>
      hb ((byteAt_eq_ascii_iff_cons (a := '\x7b') (by decide) h).2 ⟨t, ht⟩)
    rw [groupAt, if_neg hb, readGroup_plain pattern st hne, SpanRegex.plainGroup]
    split_ifs with hl
    · simp [Except.map, hj]
    · -- the separated group comes only when the group before was no lazy one
      have hlazy : st.lazyNext = false := by simp_all
      cases st
      simp_all [Except.map]

/-- The loop over a span reads what `readSpan` reads, and ends at the index where the rest
`readSpan` leaves starts. The induction follows the chained parameters of the span. -/
theorem spanFrom_eq (pattern : String) {body : List Char} : ∀ (fuel : Nat) (cs : List Char)
    (j : Nat) (st : SpanRegex), charsFrom body j = some cs → cs.length < fuel →
      spanFrom pattern body fuel j st = some ((readSpan pattern cs st).map fun r =>
        (r.1, r.2.1, String.utf8Len body - String.utf8Len r.2.2))
  | 0, _, _, _, _, hf => absurd hf (Nat.not_lt_zero _)
  | fuel + 1, cs, j, st, h, hf => by
    have hsuf : ∀ {x}, x <:+ cs → charsFrom body (String.utf8Len body - String.utf8Len x) = some x :=
      fun hx => charsFrom_of_suffix (hx.trans (suffix_of_charsFrom h))
    have hname : slice body j (nameEnd body j) = some (cs.takeWhile (!endsParamName ·)) :=
      slice_eq (List.takeWhile_append_dropWhile.symm ▸ h) (charsFrom_nameEnd h)
    rw [spanFrom, readSpan]
    simp only [Option.bind_eq_bind, hname, Option.bind_some, groupAt_eq pattern _ (charsFrom_nameEnd h)]
    cases hg : readGroup pattern (cs.dropWhile (!endsParamName ·))
        { st with names := st.names ++ [String.ofList (cs.takeWhile (!endsParamName ·))] } with
    | error e => rfl
    | ok r =>
      obtain ⟨st₁, afterGroup⟩ := r
      have hag : afterGroup <:+ cs := (readGroup_suffix hg).trans (List.dropWhile_suffix _)
      have hlen : afterGroup.length < String.utf8Len body + 1 :=
        Nat.lt_succ_of_le ((hag.trans (suffix_of_charsFrom h)).length_le.trans (length_le_utf8Len _))
      obtain ⟨e, hlit, hrest⟩ := literalFrom_eq afterGroup _ _ (hsuf hag) hlen
      have hsp := spanLiteral_spelled afterGroup
      simp only [Except.map_ok, Option.bind_some, hlit, bind, Except.bind]
      generalize spanLiteral afterGroup = sl at hrest hsp ⊢
      obtain ⟨lit, rest⟩ := sl
      dsimp only at hrest hsp ⊢
      have hrs : rest <:+ cs := (hsp ▸ List.suffix_append _ rest).trans hag
      by_cases hb : byteAt body e = some 0x3A
      · -- a single `:` chains the next parameter of the span
        obtain ⟨more, rfl⟩ := (byteAt_eq_ascii_iff_cons (a := ':') (by decide) hrest).1 hb
        have hlt : more.length < cs.length := by
          have := hrs.length_le
          simp only [List.length_cons] at this
          omega
        rw [if_pos hb, spanFrom_eq pattern fuel more (e + 1) _ (charsFrom_step hrest) (by omega)]
        simp only [if_pos hlt]
      · have hne : ∀ more, rest ≠ ':' :: more := fun more hm =>
          hb ((byteAt_eq_ascii_iff_cons (a := ':') (by decide) hrest).2 ⟨more, hm⟩)
        have he := le_of_charsFrom hrest
        rw [if_neg hb]
        split
        · next more => exact absurd rfl (hne more)
        · rw [show e = String.utf8Len body - String.utf8Len rest by omega]
          rfl

/-- `parse_param` at a `:` reads the span `readParamSpan` reads, its source sliced on boundaries,
and answers the index where the rest starts. -/
theorem parseParam_eq (pattern : String) {body cs : List Char} {start : Nat}
    (h : charsFrom body start = some (':' :: cs)) :
    parseParam pattern body start = some ((readParamSpan pattern cs).map fun r =>
      (r.1, r.2.1, String.utf8Len body - String.utf8Len r.2.2)) := by
  have hcs := charsFrom_step h
  rw [parseParam, spanFrom_eq pattern _ cs (start + 1) {} hcs (length_lt_of_charsFrom hcs)]
  unfold readParamSpan
  cases hr : readSpan pattern cs {} with
  | error e => rfl
  | ok r =>
    obtain ⟨st, lit, rest⟩ := r
    obtain ⟨pre, rfl⟩ := readSpan_suffix pattern cs {} st lit rest hr
    have hrest : charsFrom body (start + String.utf8Len (':' :: pre)) = some rest := charsFrom_append h
    have hsrc : slice body start (String.utf8Len body - String.utf8Len rest) = some (':' :: pre) := by
      refine slice_eq h ?_
      rw [show String.utf8Len body - String.utf8Len rest = start + String.utf8Len (':' :: pre) by
        have := le_of_charsFrom h
        simp only [String.utf8Len_append, String.utf8Len_cons] at this ⊢
        omega]
      exact hrest
    simp only [Except.map_ok, Option.bind_some, hsrc, bind, Except.bind, pure,
      Except.pure, List.length_append, Nat.add_sub_cancel, List.take_left]

/-! ## Agreement of `tokenize` -/

/-- The loop of `tokenize` from byte `i` reads the tokens `readTokens` reads from the text that
starts there. The induction follows `readTokens`; at a parameter the index jumps to where
`parse_param` stops, the start of the rest. -/
theorem tokensFrom_eq (pattern : String) {body : List Char} (cs lit : List Char) (acc : List Token)
    (names : List String) : ∀ (fuel i : Nat), charsFrom body i = some cs → cs.length < fuel →
      tokensFrom pattern body fuel i lit acc names = some (readTokens pattern cs lit acc names) := by
  fun_induction readTokens pattern cs lit acc names with
  | case1 lit acc names =>
    intro fuel i h hf
    obtain ⟨fuel, rfl⟩ : ∃ f, fuel = f + 1 := ⟨fuel - 1, by omega⟩
    simp only [tokensFrom, h, Option.bind_eq_bind, Option.bind_some]
    rfl
  | case2 lit acc names r ih =>
    intro fuel i h hf
    obtain ⟨fuel, rfl⟩ : ∃ f, fuel = f + 1 := ⟨fuel - 1, by simp at hf; omega⟩
    have h₁ : charsFrom body (i + 1) = some (':' :: r) := charsFrom_step h
    have hb : byteAt body (i + 1) = some 0x3A := (byteAt_eq_ascii_iff (a := ':') (by decide) h₁).2 rfl
    simp only [tokensFrom, h, Option.bind_eq_bind, Option.bind_some, if_pos, hb]
    exact ih fuel (i + 2) (charsFrom_step h₁) (by simp at hf; omega)
  | case3 lit acc names r hne ih =>
    intro fuel i h hf
    obtain ⟨fuel, rfl⟩ : ∃ f, fuel = f + 1 := ⟨fuel - 1, by simp at hf; omega⟩
    have h₁ : charsFrom body (i + 1) = some r := charsFrom_step h
    have hb : byteAt body (i + 1) ≠ some 0x3A := fun hb => by
      obtain ⟨t, rfl⟩ := (byteAt_eq_ascii_iff_cons (a := ':') (by decide) h₁).1 hb
      exact hne t rfl
    simp only [tokensFrom, h, Option.bind_eq_bind, Option.bind_some, if_pos, if_neg hb,
      parseParam_eq pattern h]
    cases hspan : readParamSpan pattern r with
    | error e => rfl
    | ok res =>
      obtain ⟨span, spanNames, rest⟩ := res
      have hsuf : rest <:+ r := by
        obtain ⟨pre, hpre, -⟩ := readParamSpan_source hspan
        exact ⟨pre, hpre.symm⟩
      have hlen : rest.length < r.length + 1 := Nat.lt_succ_of_le hsuf.length_le
      have hrest : charsFrom body (String.utf8Len body - String.utf8Len rest) = some rest :=
        charsFrom_of_suffix (hsuf.trans ((List.suffix_cons _ _).trans (suffix_of_charsFrom h)))
      simp only [Except.map_ok, bind, Except.bind, if_pos hlen]
      exact ih span spanNames rest hlen fuel _ hrest (by simp at hf; omega)
  | case4 lit acc names r hr =>
    intro fuel i h hf
    obtain rfl : r = [] := List.isEmpty_iff.1 hr
    have hlast : i + 1 = String.utf8Len body := by
      have := le_of_charsFrom h
      rwa [String.utf8Len_cons, String.utf8Len_nil, Nat.zero_add, show ('*' : Char).utf8Size = 1 from rfl]
        at this
    obtain ⟨fuel, rfl⟩ : ∃ f, fuel = f + 2 := ⟨fuel - 2, by simp at hf; omega⟩
    rw [tokensFrom, h]
    simp only [Option.bind_eq_bind, Option.bind_some, if_neg (show ('*' : Char) ≠ ':' by decide),
      if_pos, hlast, ne_eq, not_true_eq_false, if_false]
    have hend : charsFrom body (i + 1) = some [] := charsFrom_step h
    rw [tokensFrom, ← hlast, hend]
    simp only [flushText, List.isEmpty_nil, if_true]
    rfl
  | case5 lit acc names r hr =>
    intro fuel i h hf
    obtain ⟨fuel, rfl⟩ : ∃ f, fuel = f + 1 := ⟨fuel - 1, by simp at hf; omega⟩
    -- a `*` with more after it: the index after it is not the end
    have hnotLast : i + 1 ≠ String.utf8Len body := by
      have hle := le_of_charsFrom h
      have hpos : String.utf8Len r ≠ 0 := String.utf8Len_eq_zero.not.2 (by simpa using hr)
      rw [String.utf8Len_cons, show ('*' : Char).utf8Size = 1 from rfl] at hle
      omega
    rw [tokensFrom, h]
    simp only [Option.bind_eq_bind, Option.bind_some, if_neg (show ('*' : Char) ≠ ':' by decide),
      if_pos, hnotLast, ne_eq, not_false_eq_true]
    rfl
  | case6 lit acc names c r hcc hc hs ih =>
    intro fuel i h hf
    obtain ⟨fuel, rfl⟩ : ∃ f, fuel = f + 1 := ⟨fuel - 1, by simp at hf; omega⟩
    rw [tokensFrom, h]
    simp only [Option.bind_eq_bind, Option.bind_some, if_neg hc, if_neg hs]
    exact ih fuel _ (charsFrom_step h) (by simp at hf; omega)

/-- `tokenize` never panics: it answers the tokens `Route.ofTemplate` reads. -/
theorem tokenize_eq (pattern : String) : tokenize pattern = some (Route.ofTemplate pattern) :=
  tokensFrom_eq pattern _ [] [] [] _ 0 (charsFrom_zero _) (Nat.lt_succ_of_le (length_le_utf8Len _))

/-! ## Agreement of `split_optional` -/

/-- `str::find("/:")` answers the byte offset of the first `/:`, and the reader of optional
parameters steps over the characters before it one at a time. -/
theorem findSlashColon_eq_some (whole : List Char) : ∀ (cs : List Char) (o : Nat),
    findSlashColon cs = some o → ∃ X r, cs = X ++ '/' :: ':' :: r ∧ o = String.utf8Len X ∧
      ∀ pre, findOptional whole pre cs = findOptional whole (pre + X.length) ('/' :: ':' :: r) := by
  intro cs
  fun_induction findSlashColon cs with
  | case1 r =>
    intro o h
    cases h
    exact ⟨[], r, rfl, rfl, fun pre => rfl⟩
  | case2 c r hne ih =>
    intro o h
    obtain ⟨o', ho', rfl⟩ := Option.map_eq_some_iff.1 h
    obtain ⟨X, r', rfl, rfl, hX⟩ := ih o' ho'
    refine ⟨c :: X, r', rfl, by simp [Nat.add_comm], fun pre => ?_⟩
    rw [findOptional.eq_2 _ _ _ _ hne, hX]
    simp only [List.length_cons]
    congr 1
    omega
  | case3 => intro o h; cases h

/-- Where no `/:` comes, the reader finds no optional parameter. -/
theorem findOptional_of_findSlashColon_none (whole : List Char) : ∀ (cs : List Char),
    findSlashColon cs = none → ∀ pre, findOptional whole pre cs = pure none := by
  intro cs
  fun_induction findSlashColon cs with
  | case1 r => intro h; cases h
  | case2 c r hne ih =>
    intro h pre
    rw [findOptional.eq_2 _ _ _ _ hne]
    exact ih (Option.map_eq_none_iff.1 h) _
  | case3 => intro _ pre; rfl

/-- `param_end` steps over the constraint after a name when one closes there: it starts what
follows the parameter. -/
theorem optionalParamEndAt_eq {whole after : List Char} {i : Nat} (h : charsFrom whole i = some after) :
    optionalParamEndAt whole i =
      some (String.utf8Len whole - String.utf8Len (afterConstraint after)) := by
  have hi := le_of_charsFrom h
  by_cases hb : byteAt whole i = some 0x7B
  · obtain ⟨t, rfl⟩ := (byteAt_eq_ascii_iff_cons (a := '\x7b') (by decide) h).1 hb
    rw [optionalParamEndAt, if_pos hb, closingBrace_eq h, afterConstraint]
    cases hc : closeBrace t with
    | none =>
      simp only [Option.map_none, Option.map_some]
      congr 1
      omega
    | some r =>
      obtain ⟨inner, rest⟩ := r
      have hend := le_of_charsFrom (charsFrom_step (charsFrom_closingBrace h hc))
      have : ('\x7d' : Char).utf8Size = 1 := rfl
      simp only [Option.map_some]
      congr 1
      omega
  · have hne : ∀ t, after ≠ '\x7b' :: t := fun t ht =>
      hb ((byteAt_eq_ascii_iff_cons (a := '\x7b') (by decide) h).2 ⟨t, ht⟩)
    rw [optionalParamEndAt, if_neg hb, afterConstraint.eq_2 _ hne]
    exact congrArg some (by omega)

/-- The reader at a `/:`, with the end of the parameter after it read by `optionalParamEnd`. -/
theorem findOptional_slashColon (whole : List Char) (pre : Nat) (r : List Char) :
    findOptional whole pre ('/' :: ':' :: r) =
      match (optionalParamEnd r).2 with
      | '?' :: trailing =>
        if trailing.isEmpty || trailing == ['/'] then
          pure (some (String.ofList (whole.take (pre + 2 + (optionalParamEnd r).1) ++ trailing),
            if (whole.take pre ++ trailing).isEmpty then "/" else String.ofList (whole.take pre ++ trailing)))
        else throw (.optionalNotLast (String.ofList whole))
      | _ => findOptional whole (pre + 2) r := by
  rw [findOptional.eq_1]
  rfl

/-- The loop of `split_optional` from the byte where the text `cs` starts finds what the reader
of optional parameters finds from there. The loop jumps from one `/:` to the next, the reader
steps through the characters between (`findSlashColon_eq_some`); the induction is on the fuel,
which one jump uses up. -/
theorem optionalFrom_eq (whole : List Char) : ∀ (fuel : Nat) (A cs : List Char), whole = A ++ cs →
    cs.length < fuel → optionalFrom whole fuel (String.utf8Len A) = some (findOptional whole A.length cs)
  | 0, _, _, _, hf => absurd hf (Nat.not_lt_zero _)
  | fuel + 1, A, cs, hw, hf => by
    have hcs : charsFrom whole (String.utf8Len A) = some cs := hw ▸ charsFrom_utf8Len_append A cs
    rw [optionalFrom, hcs, Option.bind_eq_bind, Option.bind_some]
    cases hfind : findSlashColon cs with
    | none =>
      rw [findOptional_of_findSlashColon_none whole cs hfind]
      rfl
    | some o =>
      obtain ⟨X, r, rfl, rfl, hX⟩ := findSlashColon_eq_some whole cs o hfind
      rw [hX, findOptional_slashColon]
      obtain ⟨P, hP, hlen, -⟩ := optionalParamEnd_spec r
      have hmark : ('/' : Char).utf8Size + (':' : Char).utf8Size = 2 := rfl
      -- the name starts after `/:`, and the parameter ends where `optionalParamEnd` leaves off
      have hr : charsFrom whole (String.utf8Len A + String.utf8Len X + 2) = some r := by
        have := charsFrom_utf8Len_append (A ++ X ++ ['/', ':']) r
        simp only [String.utf8Len_append, String.utf8Len_cons, String.utf8Len_nil, List.append_assoc,
          List.cons_append, List.nil_append] at this
        rw [hw]
        convert this using 2
        omega
      have hafter := charsFrom_findFrom endsOptionalName hr
      dsimp only
      rw [findFrom_eq _ hr, Option.bind_eq_bind, Option.bind_some, optionalParamEndAt_eq hafter,
        Option.bind_some, ← optionalParamEnd_snd]
      generalize optionalParamEnd r = ope at hP hlen ⊢
      obtain ⟨len, rest⟩ := ope
      dsimp only at hP hlen ⊢
      subst hlen
      have hwhole : whole = (A ++ X ++ '/' :: ':' :: P) ++ rest := by
        rw [hw, hP]
        simp
      have hpe : charsFrom whole (String.utf8Len whole - String.utf8Len rest) = some rest :=
        charsFrom_of_suffix (hwhole ▸ List.suffix_append _ _)
      by_cases hq : byteAt whole (String.utf8Len whole - String.utf8Len rest) = some 0x3F
      · -- a `?` ends the parameter: the template splits here, or it is refused
        obtain ⟨trailing, rfl⟩ := (byteAt_eq_ascii_iff_cons (a := '?') (by decide) hpe).1 hq
        have htr : charsFrom whole (String.utf8Len whole - String.utf8Len ('?' :: trailing) + 1) =
            some trailing := charsFrom_step hpe
        have hpresent : slice whole 0 (String.utf8Len whole - String.utf8Len ('?' :: trailing)) =
            some (A ++ X ++ '/' :: ':' :: P) :=
          slice_eq (by rw [charsFrom_zero, hwhole]) hpe
        have habsent : slice whole 0 (String.utf8Len A + String.utf8Len X) = some (A ++ X) :=
          slice_eq (by rw [charsFrom_zero, hw, List.append_assoc]) (charsFrom_append hcs)
        have htake : whole.take (A.length + X.length + 2 + P.length) = A ++ X ++ '/' :: ':' :: P := by
          rw [hwhole, List.take_append_of_le_length (by simp; omega), List.take_of_length_le (by simp; omega)]
        have htake' : whole.take (A.length + X.length) = A ++ X := by
          rw [hw, ← List.append_assoc, List.take_append_of_le_length (by simp),
            List.take_of_length_le (by simp)]
        have hcond : (!trailing.isEmpty && trailing != ['/']) = !(trailing.isEmpty || trailing == ['/']) := by
          cases trailing.isEmpty <;> rfl
        rw [if_pos hq, htr, Option.bind_some, hcond, htake, htake']
        split
        · next hbad =>
          split
          · next _ t heq =>
            obtain rfl : trailing = t := (List.cons.inj heq).2
            rw [if_neg (by simpa using hbad)]
            rfl
          · next _ hne => exact absurd rfl (hne trailing)
        · next hok =>
          split
          · next _ t heq =>
            obtain rfl : trailing = t := (List.cons.inj heq).2
            rw [if_pos (by revert hok; cases (trailing.isEmpty || trailing == ['/']) <;> decide)]
            simp only [hpresent, habsent, Option.bind_some]
            rfl
          · next _ hne => exact absurd rfl (hne trailing)
      · -- no `?`: the loop goes on after `/:`, as the reader does
        rw [if_neg hq]
        split
        · next t => exact absurd ((byteAt_eq_ascii_iff_cons (a := '?') (by decide) hpe).2 ⟨t, rfl⟩) hq
        · have hnext := optionalFrom_eq whole fuel (A ++ X ++ ['/', ':']) r (by rw [hw]; simp)
            (by simp at hf; omega)
          convert hnext using 3
          · simp only [String.utf8Len_append, String.utf8Len_cons, String.utf8Len_nil]
            omega
          · simp only [List.length_append, List.length_cons, List.length_nil]

/-- `split_optional` never panics: it splits a template where the reader of optional parameters
does. -/
theorem splitOptional_eq (pattern : String) :
    splitOptional pattern = some (findOptional pattern.toList 0 pattern.toList) :=
  optionalFrom_eq pattern.toList _ [] pattern.toList rfl (Nat.lt_succ_of_le (length_le_utf8Len _))

/-! ## Agreement of `compile` -/

/-- `compile` never panics: at byte indices it answers what `Template.compile` answers. -/
theorem compile_eq (pattern : String) : compile pattern = some (Template.compile pattern) := by
  unfold compile Template.compile
  rw [splitOptional_eq, tokenize_eq]
  generalize findOptional pattern.toList 0 pattern.toList = found
  cases pattern.toList with
  | nil => rfl
  | cons c t =>
    dsimp only
    split_ifs
    · rcases found with e | _ | _ <;> rfl
    · rfl

/-! ## Agreement of `segment_regex` -/

/-- A byte is taken into a name exactly when the character it encodes alone is. -/
theorem isNameByte_toNat (c : Char) : isNameByte c.toNat = isParamNameChar c := by
  -- the letters as core defines them, read off the definitions
  have hupper : c.isUpper = decide (c.val ≥ 'A'.val ∧ c.val ≤ 'Z'.val) := rfl
  have hlower : c.isLower = (decide (c.val ≥ 'a'.val) && decide (c.val ≤ 'z'.val)) := rfl
  have halpha : c.isAlpha = (c.isUpper || c.isLower) := rfl
  rw [Bool.eq_iff_iff]
  simp only [isNameByte, isParamNameChar, Char.isAlphanum, halpha, hupper, hlower,
    Char.isDigit, ← toNat_beq c '_', Char.toNat, UInt32.le_iff_toNat_le, ge_iff_le, Bool.or_eq_true,
    Bool.and_eq_true, decide_eq_true_eq, beq_iff_eq]
  have : ('A'.val.toNat, 'Z'.val.toNat, 'a'.val.toNat, 'z'.val.toNat, '0'.val.toNat, '9'.val.toNat,
      '_'.val.toNat) = (65, 90, 97, 122, 48, 57, 95) := rfl
  simp only [Prod.mk.injEq] at this
  omega

/-- The bytes `segment_regex` takes into a name are ASCII. -/
theorem lt_of_isNameByte {b : Nat} (h : isNameByte b = true) : b < 0x80 := by
  simp only [isNameByte, Bool.or_eq_true, Bool.and_eq_true, decide_eq_true_eq, beq_iff_eq] at h
  omega

/-- A name is as long in bytes as in characters. -/
theorem utf8Len_takeWhile_isParamNameChar : ∀ r : List Char,
    String.utf8Len (r.takeWhile isParamNameChar) = (r.takeWhile isParamNameChar).length
  | [] => rfl
  | c :: r => by
    by_cases hc : isParamNameChar c
    · have hlt : c.toNat < 0x80 := lt_of_isNameByte (by rw [isNameByte_toNat]; exact hc)
      simp only [List.takeWhile_cons, hc, if_true, String.utf8Len_cons, List.length_cons,
        utf8Size_of_lt hlt, utf8Len_takeWhile_isParamNameChar r]
    · simp [hc]

/-- The byte loop over a name after a `:` counts the name's characters. -/
theorem nameLen_eq {seg r : List Char} {c : Char} {i : Nat} (h : charsFrom seg i = some (c :: r)) :
    (((bytes seg).drop (i + c.utf8Size)).takeWhile isNameByte).length =
      (r.takeWhile isParamNameChar).length := by
  rw [drop_bytes_of_charsFrom (charsFrom_step h), takeWhile_bytes_of_ascii _ fun _ => lt_of_isNameByte]
  simp only [isNameByte_toNat]
  exact utf8Len_takeWhile_isParamNameChar r

/-- What `segmentParts` reads after a parameter's name and its mark, from the text `am`: the
constraint when a `{` comes, else a segment, and then the rest of the segment. `limit` is the
length its termination check compares with. -/
def partsAfterMark (pattern : String) (isLast : Bool) (limit : Nat) (am : List Char) (out : String)
    (names : List String) : Except RouteError (String × List String) :=
  match am with
  | '\x7b' :: t =>
    match closeBrace t with
    | some (inner, after) =>
      if after.length < limit then
        segmentParts pattern isLast after (out ++ "(" ++ String.ofList (trimAnchors inner) ++ ")") names
      else throw (.unbalancedConstraint pattern)
    | none => throw (.unbalancedConstraint pattern)
  | _ =>
    if am.length < limit then segmentParts pattern isLast am (out ++ "([^/]+)") names
    else throw (.unbalancedConstraint pattern)

/-- A parameter marked `?`: allowed in the last segment only. -/
theorem segmentParts_mark (pattern : String) (isLast : Bool) {r t : List Char} (out : String)
    (names : List String) (hname : r.takeWhile isParamNameChar ≠ [])
    (ht : r.drop (r.takeWhile isParamNameChar).length = '?' :: t) :
    segmentParts pattern isLast (':' :: r) out names =
      if isLast then
        partsAfterMark pattern isLast (r.length + 1) t out (names ++ [String.ofList (r.takeWhile isParamNameChar)])
      else throw (.optionalNotLast pattern) := by
  rw [segmentParts, if_neg (by simpa [List.isEmpty_iff] using hname)]
  dsimp only
  rw [ht]
  cases isLast <;> rfl

/-- A parameter with no mark goes on to its group. -/
theorem segmentParts_unmarked (pattern : String) (isLast : Bool) {r : List Char} (out : String)
    (names : List String) (hname : r.takeWhile isParamNameChar ≠ [])
    (hne : ∀ t, r.drop (r.takeWhile isParamNameChar).length ≠ '?' :: t) :
    segmentParts pattern isLast (':' :: r) out names =
      partsAfterMark pattern isLast (r.length + 1) (r.drop (r.takeWhile isParamNameChar).length) out
        (names ++ [String.ofList (r.takeWhile isParamNameChar)]) := by
  rw [segmentParts, if_neg (by simpa [List.isEmpty_iff] using hname)]
  dsimp only
  split
  · next t heq => exact absurd heq (hne t)
  · rfl

/-- The group after a parameter's name and mark, read from byte `j` where the text `am` starts,
is what `partsAfterMark` reads there, when the rest of the loop is. -/
theorem segmentGroup_eq (pattern : String) (isLast : Bool) {seg am : List Char} {j limit : Nat}
    (out : String) (names : List String) {next : Nat → String → Option (Except RouteError (String × List String))}
    (h : charsFrom seg j = some am) (hlim : am.length < limit)
    (hnext : ∀ j' cs out', charsFrom seg j' = some cs → cs <:+ am →
      next j' out' = some (segmentParts pattern isLast cs out' names)) :
    segmentGroup pattern seg j out next = some (partsAfterMark pattern isLast limit am out names) := by
  by_cases hb : byteAt seg j = some 0x7B
  · -- a constraint: the brace scan closes where `closeBrace` does
    obtain ⟨t, rfl⟩ := (byteAt_eq_ascii_iff_cons (a := '\x7b') (by decide) h).1 hb
    rw [segmentGroup, if_pos hb, closingBrace_eq h, partsAfterMark]
    cases hc : closeBrace t with
    | none =>
      simp only [Option.map_none, Option.bind_eq_bind, Option.bind_some]
      rfl
    | some r =>
      obtain ⟨inner, after⟩ := r
      have hsuf : after <:+ '\x7b' :: t := (closeBraceFrom_suffix t 1 [] inner after hc).trans
        ((List.tail_suffix t).trans (List.suffix_cons _ _))
      simp only [Option.map_some, Option.bind_eq_bind, Option.bind_some, slice_closingBrace h hc]
      rw [if_pos (Nat.lt_of_le_of_lt hsuf.length_le hlim)]
      exact hnext _ after _ (charsFrom_step (charsFrom_closingBrace h hc)) hsuf
  · have hne : ∀ t, am ≠ '\x7b' :: t := fun t ht =>
      hb ((byteAt_eq_ascii_iff_cons (a := '\x7b') (by decide) h).2 ⟨t, ht⟩)
    rw [segmentGroup, if_neg hb, partsAfterMark.eq_2 _ _ _ _ _ _ hne, if_pos hlim]
    exact hnext j am _ h (List.suffix_refl am)

/-- The loop of `segment_regex` from byte `i` reads what `segmentParts` reads from the text that
starts there. The induction is on the fuel; at a parameter, the group hands the rest of the loop
to the induction hypothesis (`segmentGroup_eq`). -/
theorem segmentFrom_eq (pattern : String) (isLast : Bool) {seg : List Char} : ∀ (fuel : Nat)
    (cs : List Char) (i : Nat) (out : String) (names : List String), charsFrom seg i = some cs →
      cs.length < fuel →
        segmentFrom pattern isLast seg fuel i out names = some (segmentParts pattern isLast cs out names)
  | 0, _, _, _, _, _, hf => absurd hf (Nat.not_lt_zero _)
  | fuel + 1, [], i, out, names, h, _ => by
    rw [segmentFrom, h, segmentParts]
    rfl
  | fuel + 1, c :: r, i, out, names, h, hf => by
    have hr : r.length < fuel := by simp at hf; omega
    rw [segmentFrom, h, Option.bind_eq_bind, Option.bind_some]
    dsimp only
    rw [nameLen_eq h]
    by_cases hlit : c ≠ ':' ∨ (r.takeWhile isParamNameChar).length = 0
    · -- a character of the literal text, quoted
      have hpiece : slice seg i (i + c.utf8Size) = some [c] := slice_eq (show charsFrom seg i = some ([c] ++ r) from h) (charsFrom_step h)
      have hcond : (c != ':' || (r.takeWhile isParamNameChar).isEmpty) = true := by
        rcases hlit with hc | hz
        · simp [hc]
        · simp [List.length_eq_zero_iff.1 hz]
      rw [if_pos hlit, hpiece, Option.bind_some, segmentParts, if_pos hcond, ← String.singleton_eq_ofList]
      exact segmentFrom_eq pattern isLast fuel r _ _ _ (charsFrom_step h) hr
    · -- a parameter: its name, its mark and its group
      obtain ⟨rfl, hlen⟩ : c = ':' ∧ (r.takeWhile isParamNameChar).length ≠ 0 := by
        simpa only [not_or, not_not] using hlit
      have hname : r.takeWhile isParamNameChar ≠ [] := fun e => hlen (by rw [e]; rfl)
      have hdrop : r.drop (r.takeWhile isParamNameChar).length = r.dropWhile isParamNameChar := by
        have : (r.takeWhile isParamNameChar ++ r.dropWhile isParamNameChar).drop
            (r.takeWhile isParamNameChar).length = r.dropWhile isParamNameChar := List.drop_left
        rwa [List.takeWhile_append_dropWhile] at this
      have h₁ : charsFrom seg (i + 1) = some (r.takeWhile isParamNameChar ++ r.dropWhile isParamNameChar) := by
        rw [List.takeWhile_append_dropWhile]
        exact charsFrom_step h
      have hj : charsFrom seg (i + 1 + (r.takeWhile isParamNameChar).length) =
          some (r.drop (r.takeWhile isParamNameChar).length) := by
        rw [hdrop, ← utf8Len_takeWhile_isParamNameChar]
        exact charsFrom_append h₁
      have hsuf : r.drop (r.takeWhile isParamNameChar).length <:+ r := List.drop_suffix _ _
      -- the rest of the loop, after the group, is the induction hypothesis
      have hnext : ∀ am, am <:+ r → ∀ j' cs out', charsFrom seg j' = some cs → cs <:+ am →
          segmentFrom pattern isLast seg fuel j' out' (names ++ [String.ofList (r.takeWhile isParamNameChar)]) =
            some (segmentParts pattern isLast cs out' (names ++ [String.ofList (r.takeWhile isParamNameChar)])) :=
        fun am ham j' cs out' hcs hcam =>
          segmentFrom_eq pattern isLast fuel cs j' out' _ hcs
            (Nat.lt_of_le_of_lt (hcam.trans ham).length_le hr)
      rw [if_neg hlit, slice_eq (hdrop ▸ h₁) hj, Option.bind_some]
      by_cases hq : byteAt seg (i + 1 + (r.takeWhile isParamNameChar).length) = some 0x3F
      · -- a `?` mark
        obtain ⟨t, ht⟩ := (byteAt_eq_ascii_iff_cons (a := '?') (by decide) hj).1 hq
        rw [segmentParts_mark pattern isLast out names hname ht]
        cases isLast with
        | false => rw [if_pos ⟨hq, rfl⟩]; rfl
        | true =>
          have htsuf : t <:+ r := (List.suffix_cons _ t).trans (ht ▸ hsuf)
          rw [if_neg (fun hc => Bool.noConfusion hc.2), if_pos hq, if_pos rfl]
          exact segmentGroup_eq pattern true out _ (charsFrom_step (ht ▸ hj))
            (Nat.lt_succ_of_le htsuf.length_le) (hnext t htsuf)
      · have hne : ∀ t, r.drop (r.takeWhile isParamNameChar).length ≠ '?' :: t := fun t ht =>
          hq ((byteAt_eq_ascii_iff_cons (a := '?') (by decide) hj).2 ⟨t, ht⟩)
        rw [segmentParts_unmarked pattern isLast out names hname hne, if_neg (fun hc => hq hc.1), if_neg hq]
        exact segmentGroup_eq pattern isLast out _ hj (Nat.lt_succ_of_le hsuf.length_le) (hnext _ hsuf)

/-- `segment_regex` never panics: at byte indices it answers what `segmentRegex` answers. -/
theorem segmentRegex_eq (pattern : String) (isLast : Bool) (seg : List Char) :
    segmentRegex pattern isLast seg = some (Routing.segmentRegex pattern isLast seg) := by
  have hloop := segmentFrom_eq pattern isLast (String.utf8Len seg + 1) seg 0 "" [] (charsFrom_zero seg)
    (Nat.lt_succ_of_le (length_le_utf8Len seg))
  have hpred : (fun c : Char => !(c == '\x7b')) = (fun c => c != '\x7b') := rfl
  rw [segmentRegex, Routing.segmentRegex, findChar_eq, hpred]
  cases hd : seg.dropWhile (· != '\x7b') with
  | nil => simpa using hloop
  | cons c t =>
    -- the first `{`: its constraint must close
    have hc : c = '\x7b' := by
      have := List.head_dropWhile_not (· != '\x7b') (l := seg) (by simp [hd])
      simpa [hd] using this
    subst hc
    have hopen : charsFrom seg (String.utf8Len (seg.takeWhile (· != '\x7b'))) = some ('\x7b' :: t) := by
      rw [← hd, ← Nat.zero_add (String.utf8Len _)]
      exact charsFrom_append (show charsFrom seg 0 = some (seg.takeWhile (· != '\x7b') ++ seg.dropWhile _)
        by rw [List.takeWhile_append_dropWhile]; exact charsFrom_zero seg)
    simp only [reduceCtorEq, if_false, Option.bind_eq_bind, closingBrace_eq hopen, Option.map_some,
      Option.bind_some]
    cases closeBrace t with
    | none => rfl
    | some _ => simpa using hloop

end Indexed

end Routing
