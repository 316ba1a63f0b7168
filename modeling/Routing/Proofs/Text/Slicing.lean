import Mathlib.Data.String.Basic
import Routing.Text.Utf8
/-!
# Byte indices into texts

The router's texts are indexed by byte: `bytes.get(i)` reads a byte of the UTF-8 form, and
`&text[i..]`, `&text[i..j]` slice it, which panics unless both ends lie within the text and on
character boundaries. `charsFrom` is that check for one end: it answers the characters from byte
`i` on, and `none` where slicing would panic; `slice` checks both ends.

Byte `i` starts the suffix `rest` exactly when the text is `pre ++ rest` with `i` the UTF-8
length of `pre` (`charsFrom_eq_some_iff`), so an index `charsFrom` accepts is a valid position
of the string (`isValid_of_charsFrom`), and stepping over the character there gives another
(`charsFrom_step`). A byte below `0x80` is a whole character, and every byte of a longer
character is at least `0x80` (`utf8Encode_of_lt`, `le_of_mem_utf8Encode`): so the byte at a
boundary is an ASCII character exactly when that character comes next (`byteAt_eq_ascii_iff`),
and a byte loop that steps over every byte from `0x80` up stops only on boundaries
(`takeWhile_bytes_of_high`, `takeWhile_bytes_of_ascii`).
-/

namespace Routing.Text

/-! ## The bytes of a character -/

theorem utf8Size_eq_of_toNat (c : Char) :
    c.utf8Size = if c.toNat < 0x80 then 1 else if c.toNat < 0x800 then 2
      else if c.toNat < 0x10000 then 3 else 4 := by
  have h := c.val.toNat_lt_size
  simp only [Char.utf8Size, Char.toNat, UInt32.le_iff_toNat_le, UInt32.toNat_ofNatLT]
  split_ifs <;> omega

theorem length_utf8Encode (c : Char) : (utf8Encode c).length = c.utf8Size := by
  rw [utf8Size_eq_of_toNat, utf8Encode]
  split_ifs <;> rfl

theorem utf8Encode_of_lt {c : Char} (h : c.toNat < 0x80) : utf8Encode c = [c.toNat] := by
  simp [utf8Encode, h]

/-- Every byte of a character outside ASCII is at least `0x80`. -/
theorem le_of_mem_utf8Encode {c : Char} (h : 0x80 ≤ c.toNat) {b : Nat} (hb : b ∈ utf8Encode c) :
    0x80 ≤ b := by
  simp only [utf8Encode, Nat.not_lt.2 h, if_false] at hb
  split_ifs at hb <;> simp at hb <;> omega

theorem utf8Size_of_lt {c : Char} (h : c.toNat < 0x80) : c.utf8Size = 1 := by
  rw [← length_utf8Encode, utf8Encode_of_lt h, List.length_singleton]

/-! ## The bytes of a text -/

/-- The UTF-8 bytes of a text. -/
def bytes (cs : List Char) : List Nat := cs.flatMap utf8Encode

/-- `bytes.get(i)`: the byte at index `i`, if the text has one. -/
def byteAt (cs : List Char) (i : Nat) : Option Nat := (bytes cs)[i]?

@[simp] theorem bytes_nil : bytes [] = [] := rfl

@[simp] theorem bytes_cons (c : Char) (cs : List Char) : bytes (c :: cs) = utf8Encode c ++ bytes cs := by
  simp [bytes]

@[simp] theorem bytes_append (a b : List Char) : bytes (a ++ b) = bytes a ++ bytes b := by
  simp [bytes]

@[simp] theorem length_bytes (cs : List Char) : (bytes cs).length = String.utf8Len cs := by
  induction cs with
  | nil => rfl
  | cons c cs ih => simp [ih, length_utf8Encode, Nat.add_comm]

/-! ## Where slicing does not panic -/

/-- `&text[i..]`: the characters from byte `i` on, or `none` where slicing panics, at an index past
the end or inside a character. -/
def charsFrom : List Char → Nat → Option (List Char)
  | cs, 0 => some cs
  | [], _ + 1 => none
  | c :: cs, i + 1 => if c.utf8Size ≤ i + 1 then charsFrom cs (i + 1 - c.utf8Size) else none

/-- `&text[i..j]`: the characters between bytes `i` and `j`, or `none` where slicing panics. -/
def slice (cs : List Char) (i j : Nat) : Option (List Char) := do
  let tail ← charsFrom cs i
  let after ← charsFrom cs j
  if i ≤ j then pure (tail.take (tail.length - after.length)) else none

theorem charsFrom_utf8Len_append : ∀ (pre rest : List Char),
    charsFrom (pre ++ rest) (String.utf8Len pre) = some rest
  | [], rest => by cases rest <;> rfl
  | c :: pre, rest => by
    have hc := c.utf8Size_pos
    obtain ⟨n, hn⟩ : ∃ n, String.utf8Len (c :: pre) = n + 1 :=
      ⟨String.utf8Len pre + c.utf8Size - 1, by simp; omega⟩
    rw [List.cons_append, hn, charsFrom, if_pos (by simp at hn; omega)]
    have : n + 1 - c.utf8Size = String.utf8Len pre := by simp at hn; omega
    rw [this, charsFrom_utf8Len_append pre rest]

theorem exists_of_charsFrom : ∀ {cs : List Char} {i : Nat} {rest : List Char},
    charsFrom cs i = some rest → ∃ pre, cs = pre ++ rest ∧ i = String.utf8Len pre
  | cs, 0, rest, h => by
    cases cs <;> (simp only [charsFrom, Option.some.injEq] at h; subst h; exact ⟨[], rfl, rfl⟩)
  | [], _ + 1, _, h => by simp [charsFrom] at h
  | c :: cs, i + 1, rest, h => by
    rw [charsFrom] at h
    split_ifs at h with hle
    obtain ⟨pre, rfl, hi⟩ := exists_of_charsFrom h
    exact ⟨c :: pre, rfl, by simp; omega⟩

/-- Byte `i` starts the suffix `rest` exactly when the text is `pre ++ rest` with `i` the byte
length of `pre`. -/
theorem charsFrom_eq_some_iff {cs rest : List Char} {i : Nat} :
    charsFrom cs i = some rest ↔ ∃ pre, cs = pre ++ rest ∧ i = String.utf8Len pre := by
  constructor
  · exact exists_of_charsFrom
  · rintro ⟨pre, rfl, rfl⟩
    exact charsFrom_utf8Len_append pre rest

variable {cs rest : List Char} {i : Nat}

/-- An index slicing accepts is a character boundary of the string. -/
theorem isValid_of_charsFrom (h : charsFrom cs i = some rest) :
    String.Pos.Raw.IsValid (String.ofList cs) ⟨i⟩ := by
  obtain ⟨pre, rfl, rfl⟩ := exists_of_charsFrom h
  refine String.Pos.Raw.isValid_iff_exists_append.2
    ⟨String.ofList pre, String.ofList rest, by simp, ?_⟩
  simp

theorem le_of_charsFrom (h : charsFrom cs i = some rest) :
    i + String.utf8Len rest = String.utf8Len cs := by
  obtain ⟨pre, rfl, rfl⟩ := exists_of_charsFrom h
  simp

theorem charsFrom_zero (cs : List Char) : charsFrom cs 0 = some cs := by
  cases cs <;> rfl

theorem charsFrom_utf8Len (cs : List Char) : charsFrom cs (String.utf8Len cs) = some [] := by
  simpa using charsFrom_utf8Len_append cs []

/-- Stepping over the character at a boundary reaches the next boundary. -/
theorem charsFrom_step {c : Char} (h : charsFrom cs i = some (c :: rest)) :
    charsFrom cs (i + c.utf8Size) = some rest := by
  obtain ⟨pre, rfl, rfl⟩ := exists_of_charsFrom h
  simpa using charsFrom_utf8Len_append (pre ++ [c]) rest

/-- Stepping over a run of characters at a boundary reaches the boundary after them. -/
theorem charsFrom_append {run : List Char} (h : charsFrom cs i = some (run ++ rest)) :
    charsFrom cs (i + String.utf8Len run) = some rest := by
  obtain ⟨pre, rfl, rfl⟩ := exists_of_charsFrom h
  simpa using charsFrom_utf8Len_append (pre ++ run) rest

/-- A suffix of a text starts where the bytes of the text before it end. -/
theorem charsFrom_of_suffix (h : rest <:+ cs) :
    charsFrom cs (String.utf8Len cs - String.utf8Len rest) = some rest := by
  obtain ⟨pre, rfl⟩ := h
  rw [String.utf8Len_append, Nat.add_sub_cancel]
  exact charsFrom_utf8Len_append pre rest

theorem suffix_of_charsFrom (h : charsFrom cs i = some rest) : rest <:+ cs := by
  obtain ⟨pre, rfl, -⟩ := exists_of_charsFrom h
  exact List.suffix_append pre rest

/-- A text has at least as many bytes as characters. -/
theorem length_le_utf8Len : ∀ cs : List Char, cs.length ≤ String.utf8Len cs
  | [] => Nat.le_refl _
  | c :: cs => by
    have := length_le_utf8Len cs
    have := c.utf8Size_pos
    simp only [List.length_cons, String.utf8Len_cons]
    omega

/-- A text from a boundary is no longer in characters than the whole text in bytes. -/
theorem length_lt_of_charsFrom (h : charsFrom cs i = some rest) : rest.length < String.utf8Len cs + 1 :=
  Nat.lt_succ_of_le ((suffix_of_charsFrom h).length_le.trans (length_le_utf8Len _))

theorem drop_bytes_of_charsFrom (h : charsFrom cs i = some rest) : (bytes cs).drop i = bytes rest := by
  obtain ⟨pre, rfl, rfl⟩ := exists_of_charsFrom h
  rw [bytes_append, ← length_bytes, List.drop_left]

/-- Slicing between the boundaries that start `mid ++ rest` and `rest` gives `mid`. -/
theorem slice_eq {j : Nat} {mid : List Char} (hi : charsFrom cs i = some (mid ++ rest))
    (hj : charsFrom cs j = some rest) : slice cs i j = some mid := by
  have hij : j = i + String.utf8Len mid := by
    have h₁ := le_of_charsFrom hi
    have h₂ := le_of_charsFrom hj
    simp at h₁; omega
  subst hij
  simp [slice, hi, hj]

/-! ## Bytes at a boundary -/

/-- The byte at a boundary is the first byte of the character there. -/
theorem byteAt_of_charsFrom (h : charsFrom cs i = some rest) :
    byteAt cs i = (bytes rest).head? := by
  rw [byteAt, ← List.head?_drop, drop_bytes_of_charsFrom h]

/-- At a boundary, the byte is the ASCII character `a` exactly when `a` comes next. -/
theorem byteAt_eq_ascii_iff {a : Char} (ha : a.toNat < 0x80) (h : charsFrom cs i = some rest) :
    byteAt cs i = some a.toNat ↔ rest.head? = some a := by
  rw [byteAt_of_charsFrom h]
  cases rest with
  | nil => simp
  | cons c rest =>
    by_cases hc : c.toNat < 0x80
    · simp only [bytes_cons, utf8Encode_of_lt hc, List.cons_append, List.head?_cons,
        Option.some.injEq, List.head?_cons]
      exact ⟨fun h => (Char.toNat_inj.1 h).symm ▸ rfl, fun h => h ▸ rfl⟩
    · -- a longer character starts with a byte from `0x80` up, and is not `a`
      have hne : c ≠ a := fun h => hc (h ▸ ha)
      obtain ⟨b, bs, hbs⟩ := List.exists_cons_of_ne_nil
        (List.ne_nil_of_length_pos (by rw [length_utf8Encode]; exact c.utf8Size_pos))
      have hb := le_of_mem_utf8Encode (Nat.not_lt.1 hc) (hbs ▸ List.mem_cons_self)
      simp only [bytes_cons, hbs, List.cons_append, List.head?_cons, Option.some.injEq]
      exact ⟨fun h => absurd h (by omega), fun h => absurd h hne⟩

/-- A byte test against an ASCII character reads the next character. -/
theorem byteAt_eq_ascii_iff_cons {a : Char} (ha : a.toNat < 0x80) (h : charsFrom cs i = some rest) :
    byteAt cs i = some a.toNat ↔ ∃ t, rest = a :: t := by
  rw [byteAt_eq_ascii_iff ha h]
  cases rest with
  | nil => simp
  | cons c t => simp [eq_comm]

/-! ## Byte loops that stop on boundaries -/

/-- A byte loop that goes on over every byte from `0x80` up steps over whole characters: it stops
at the first character whose byte stops it. -/
theorem takeWhile_bytes_of_high (p : Nat → Bool) (hp : ∀ b, 0x80 ≤ b → p b = true) :
    ∀ cs : List Char, ((bytes cs).takeWhile p).length =
      String.utf8Len (cs.takeWhile fun c => p c.toNat)
  | [] => rfl
  | c :: cs => by
    by_cases hc : c.toNat < 0x80
    · rw [bytes_cons, utf8Encode_of_lt hc, List.singleton_append]
      by_cases hpc : p c.toNat = true
      · simp [hpc, takeWhile_bytes_of_high p hp cs, utf8Size_of_lt hc, Nat.add_comm]
      · simp [hpc]
    · have hall : ∀ b ∈ utf8Encode c, p b = true :=
        fun b hb => hp b (le_of_mem_utf8Encode (Nat.not_lt.1 hc) hb)
      have hpc : p c.toNat = true := hp _ (Nat.not_lt.1 hc)
      rw [bytes_cons, List.takeWhile_append_of_pos hall,
        List.takeWhile_cons_of_pos (p := fun c : Char => p c.toNat) hpc, List.length_append,
        length_utf8Encode, takeWhile_bytes_of_high p hp cs, String.utf8Len_cons, Nat.add_comm]

/-- A byte loop that goes on over ASCII bytes only stops at the first character it does not take:
every character it takes is one byte. -/
theorem takeWhile_bytes_of_ascii (p : Nat → Bool) (hp : ∀ b, p b = true → b < 0x80) :
    ∀ cs : List Char, ((bytes cs).takeWhile p).length =
      String.utf8Len (cs.takeWhile fun c => p c.toNat)
  | [] => rfl
  | c :: cs => by
    by_cases hc : c.toNat < 0x80
    · rw [bytes_cons, utf8Encode_of_lt hc, List.singleton_append]
      by_cases hpc : p c.toNat = true
      · simp [hpc, takeWhile_bytes_of_ascii p hp cs, utf8Size_of_lt hc, Nat.add_comm]
      · simp [hpc]
    · -- the first byte of a longer character is not taken, and neither is the character
      have hpc : p c.toNat = false := by
        cases h : p c.toNat
        · rfl
        · exact absurd (hp _ h) hc
      obtain ⟨b, bs, hbs⟩ := List.exists_cons_of_ne_nil
        (List.ne_nil_of_length_pos (by rw [length_utf8Encode]; exact c.utf8Size_pos))
      have hb := le_of_mem_utf8Encode (Nat.not_lt.1 hc) (hbs ▸ List.mem_cons_self)
      have hpb : p b = false := by
        cases h : p b
        · rfl
        · exact absurd (hp _ h) (by omega)
      simp [bytes_cons, hbs, hpb, hpc]

/-! ## Searching from an index -/

/-- `str::find` with a character predicate: the byte offset of the first character it holds of. -/
def findChar (p : Char → Bool) : List Char → Option Nat
  | [] => none
  | c :: r => if p c then some 0 else (findChar p r).map (c.utf8Size + ·)

/-- `text[i..].find(p).map_or(text.len(), |o| i + o)`: the byte index of the first character from
byte `i` on that `p` holds of, or the end of the text; `none` where slicing at `i` would panic. -/
def findFrom (p : Char → Bool) (text : List Char) (i : Nat) : Option Nat := do
  match findChar p (← charsFrom text i) with
  | some o => pure (i + o)
  | none => pure (String.utf8Len text)

/-- `str::find` with a predicate answers the byte length of the characters before the first it
holds of. -/
theorem findChar_eq (p : Char → Bool) : ∀ r : List Char,
    findChar p r = if r.dropWhile (!p ·) = [] then none
      else some (String.utf8Len (r.takeWhile (!p ·)))
  | [] => rfl
  | c :: r => by
    by_cases hc : p c
    · simp [findChar, hc]
    · rw [findChar, if_neg hc, findChar_eq p r]
      simp only [List.dropWhile_cons, List.takeWhile_cons, hc, Bool.not_false, if_true]
      split_ifs <;> simp [Nat.add_comm]

/-- From a boundary, the search stops after the characters `p` does not hold of: at a boundary. -/
theorem findFrom_eq (p : Char → Bool) (h : charsFrom cs i = some rest) :
    findFrom p cs i = some (i + String.utf8Len (rest.takeWhile (!p ·))) := by
  rw [findFrom, h, Option.bind_eq_bind, Option.bind_some, findChar_eq]
  split_ifs with hnil
  · -- `p` holds of no character: the search runs to the end of the text
    have hall : rest.takeWhile (!p ·) = rest := by
      simpa [hnil] using (List.takeWhile_append_dropWhile (p := (!p ·)) (l := rest))
    rw [hall]
    exact congrArg some (le_of_charsFrom h).symm
  · rfl

/-- Where the search stops, the characters `p` does not hold of are behind. -/
theorem charsFrom_findFrom (p : Char → Bool) (h : charsFrom cs i = some rest) :
    charsFrom cs (i + String.utf8Len (rest.takeWhile (!p ·))) = some (rest.dropWhile (!p ·)) :=
  charsFrom_append (show charsFrom cs i = some (rest.takeWhile (!p ·) ++ rest.dropWhile (!p ·)) by
    rw [List.takeWhile_append_dropWhile]; exact h)

/-- The text from a boundary up to the first character `p` accepts slices out as that run. -/
theorem slice_findFrom (p : Char → Bool) (h : charsFrom cs i = some rest) :
    slice cs i (i + String.utf8Len (rest.takeWhile (!p ·))) = some (rest.takeWhile (!p ·)) :=
  slice_eq (by rw [List.takeWhile_append_dropWhile]; exact h) (charsFrom_findFrom p h)

end Routing.Text
