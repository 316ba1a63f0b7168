import Mathlib.Data.String.Basic
import Routing.Text.Bytes
/-!
# Where two texts part

`commonPrefixLen` answers a byte offset. Counted in characters instead, two texts share
`commonPrefixChars` characters at their beginning, and past them they end or differ
(`commonPrefixChars_maximal`). The walk over the first text's `charIndices` keeps exactly the pairs
of those characters (`takeWhile_zip_charIndices`), and the last of them ends at the byte length of
the characters before it (`lastEnd_zip_charIndices`); so `commonPrefixLen` is the UTF-8 length of
the shared characters (`commonPrefixLen_eq_utf8Len`).

Main result: that offset is a character boundary of both texts, they agree before it, and at it
one of them ends or their next characters differ (`commonPrefixLen_longest_on_boundaries`).
Cutting a text at the byte length of its first `n` characters takes or leaves exactly those
characters (`takeBytes_utf8Len_take`, `dropBytes_utf8Len_take`), which is how a split of the trie
reads the offset.
-/

namespace Routing.Text

/-- The number of characters two texts share at their beginning. -/
def commonPrefixChars : List Char → List Char → Nat
  | a :: as, b :: bs => if a = b then commonPrefixChars as bs + 1 else 0
  | _, _ => 0

/-! ## Common prefixes in characters -/

theorem commonPrefixChars_le_left : ∀ a b : List Char, commonPrefixChars a b ≤ a.length
  | a :: as, b :: bs => by
    rw [commonPrefixChars]
    split_ifs
    · have := commonPrefixChars_le_left as bs
      simp only [List.length_cons]; omega
    · exact Nat.zero_le _
  | [], _ => Nat.zero_le _
  | _ :: _, [] => Nat.zero_le _

theorem commonPrefixChars_le_right : ∀ a b : List Char, commonPrefixChars a b ≤ b.length
  | a :: as, b :: bs => by
    rw [commonPrefixChars]
    split_ifs
    · have := commonPrefixChars_le_right as bs
      simp only [List.length_cons]; omega
    · exact Nat.zero_le _
  | [], _ => Nat.zero_le _
  | _ :: _, [] => Nat.zero_le _

/-- The two texts agree on their common prefix. -/
theorem take_commonPrefixChars : ∀ a b : List Char,
    a.take (commonPrefixChars a b) = b.take (commonPrefixChars a b)
  | a :: as, b :: bs => by
    rw [commonPrefixChars]
    split_ifs with h
    · subst h
      simp [take_commonPrefixChars as bs]
    · rfl
  | [], _ => rfl
  | _ :: _, [] => rfl

theorem commonPrefixChars_cons_cons (c : Char) (a b : List Char) :
    commonPrefixChars (c :: a) (c :: b) = commonPrefixChars a b + 1 := by
  simp [commonPrefixChars]

/-- Past their common prefix the two texts end or differ. -/
theorem commonPrefixChars_maximal : ∀ a b : List Char,
    commonPrefixChars a b = a.length ∨ commonPrefixChars a b = b.length ∨
      a[commonPrefixChars a b]? ≠ b[commonPrefixChars a b]?
  | a :: as, b :: bs => by
    rw [commonPrefixChars]
    split_ifs with h
    · -- equal first characters: the rests decide
      simpa using commonPrefixChars_maximal as bs
    · exact .inr (.inr (by simpa using h))
  | [], _ => .inl rfl
  | _ :: _, [] => .inr (.inl rfl)

/-! ## Byte lengths of character prefixes -/

/-- A prefix of a text is shorter in bytes exactly when it is shorter in characters. -/
theorem utf8Len_take_lt_iff (cs : List Char) (n : Nat) :
    String.utf8Len (cs.take n) < String.utf8Len cs ↔ n < cs.length := by
  conv => lhs; rhs; rw [← List.take_append_drop n cs]
  rw [String.utf8Len_append]
  have hdrop : cs.drop n ≠ [] ↔ n < cs.length := by simp
  constructor
  · intro h
    exact hdrop.1 fun hnil => by simp [hnil] at h
  · intro h
    have : String.utf8Len (cs.drop n) ≠ 0 := String.utf8Len_eq_zero.not.2 (hdrop.2 h)
    omega

theorem takeBytes_utf8Len_take : ∀ (cs : List Char) (n : Nat),
    takeBytes cs (String.utf8Len (cs.take n)) = cs.take n
  | [], _ => by simp [takeBytes]
  | _ :: _, 0 => by simp [takeBytes]
  | c :: cs, n + 1 => by
    have := c.utf8Size_pos
    rw [List.take_succ_cons, String.utf8Len_cons, takeBytes, if_neg (by omega), Nat.add_sub_cancel,
      takeBytes_utf8Len_take cs n]

theorem dropBytes_utf8Len_take : ∀ (cs : List Char) (n : Nat),
    dropBytes cs (String.utf8Len (cs.take n)) = cs.drop n
  | [], _ => by simp [dropBytes]
  | _ :: _, 0 => by simp [dropBytes]
  | c :: cs, n + 1 => by
    have := c.utf8Size_pos
    rw [List.take_succ_cons, String.utf8Len_cons, dropBytes, if_neg (by omega), Nat.add_sub_cancel,
      dropBytes_utf8Len_take cs n, List.drop_succ_cons]

/-! ## The walk over character offsets -/

/-- Where the last pair of a walk ends, or 0 for an empty walk. -/
def lastEnd (walk : List ((Nat × Char) × Char)) : Nat :=
  match walk.getLast? with
  | some ((index, ch), _) => index + ch.utf8Size
  | none => 0

theorem commonPrefixLen_eq_lastEnd (a b : List Char) :
    commonPrefixLen a b = lastEnd (((charIndices a 0).zip b).takeWhile fun p => p.1.2 == p.2) :=
  rfl

theorem lastEnd_cons (e : (Nat × Char) × Char) (walk : List ((Nat × Char) × Char)) :
    lastEnd (e :: walk) = if walk = [] then e.1.1 + e.1.2.utf8Size else lastEnd walk := by
  cases walk with
  | nil => rfl
  | cons e' walk => simp [lastEnd, List.getLast?_cons_cons]

/-- The walk keeps the pairs of the shared characters and stops at the first that differ. -/
theorem takeWhile_zip_charIndices : ∀ (a b : List Char) (offset : Nat),
    ((charIndices a offset).zip b).takeWhile (fun p => p.1.2 == p.2) =
      (charIndices (a.take (commonPrefixChars a b)) offset).zip b
  | [], _, _ => rfl
  | _ :: _, [], _ => by simp [charIndices, commonPrefixChars]
  | a :: as, b :: bs, offset => by
    rw [commonPrefixChars]
    split_ifs with h
    · subst h
      simp [charIndices, takeWhile_zip_charIndices as bs]
    · simp [charIndices, h]

/-- A walk over the offsets of `cs` ends where `cs` ends, `utf8Len cs` bytes after its start. -/
theorem lastEnd_zip_charIndices : ∀ (cs ds : List Char) (offset : Nat), cs.length ≤ ds.length →
    lastEnd ((charIndices cs offset).zip ds) = if cs = [] then 0 else offset + String.utf8Len cs
  | [], _, _, _ => rfl
  | _ :: _, [], _, h => by simp at h
  | c :: cs, d :: ds, offset, h => by
    have hlen : cs.length ≤ ds.length := by simpa using h
    have hnil : (charIndices cs (offset + c.utf8Size)).zip ds = [] ↔ cs = [] := by
      cases cs with
      | nil => simp [charIndices]
      | cons c' cs => cases ds with
        | nil => simp at hlen
        | cons d' ds => simp [charIndices]
    rw [charIndices, List.zip_cons_cons, lastEnd_cons, lastEnd_zip_charIndices cs ds _ hlen]
    by_cases hcs : cs = []
    · subst hcs
      simp [charIndices]
    · simp only [hnil, hcs, if_false, String.utf8Len_cons, reduceCtorEq]
      omega

/-- The offset `commonPrefixLen` answers is the byte length of the shared characters. -/
theorem commonPrefixLen_eq_utf8Len (a b : List Char) :
    commonPrefixLen a b = String.utf8Len (a.take (commonPrefixChars a b)) := by
  have hlen : (a.take (commonPrefixChars a b)).length ≤ b.length := by
    rw [List.length_take]
    exact Nat.le_trans (Nat.min_le_left _ _) (commonPrefixChars_le_right a b)
  rw [commonPrefixLen_eq_lastEnd, takeWhile_zip_charIndices, lastEnd_zip_charIndices _ _ _ hlen]
  split_ifs with h
  · simp [h]
  · simp

/-! ## Cutting two texts where they part -/

/-- Two texts are one common prefix `p` followed by rests: `commonPrefixLen` is the byte length of
`p`, so it is a character boundary of both texts, and past it one text ends or the two differ. -/
theorem commonPrefixLen_longest_on_boundaries (a b : String) :
    String.Pos.Raw.IsValid a ⟨commonPrefixLen a.toList b.toList⟩ ∧
      String.Pos.Raw.IsValid b ⟨commonPrefixLen a.toList b.toList⟩ ∧
      ∃ p a' b' : String, a = p ++ a' ∧ b = p ++ b' ∧
        p.utf8ByteSize = commonPrefixLen a.toList b.toList ∧
        (commonPrefixLen a.toList b.toList = a.utf8ByteSize ∨
          commonPrefixLen a.toList b.toList = b.utf8ByteSize ∨ a'.toList.head? ≠ b'.toList.head?) := by
  have hsame := take_commonPrefixChars a.toList b.toList
  have hmax := commonPrefixChars_maximal a.toList b.toList
  rw [commonPrefixLen_eq_utf8Len]
  generalize commonPrefixChars a.toList b.toList = n at hsame hmax ⊢
  -- the prefix is the first `n` characters of either text, the rests what follows them
  have ha : a = String.ofList (a.toList.take n) ++ String.ofList (a.toList.drop n) := by
    rw [← String.toList_inj]; simp
  have hb : b = String.ofList (a.toList.take n) ++ String.ofList (b.toList.drop n) := by
    rw [← String.toList_inj, hsame]; simp
  have hend : (⟨String.utf8Len (a.toList.take n)⟩ : String.Pos.Raw) =
      (String.ofList (a.toList.take n)).rawEndPos :=
    (String.rawEndPos_ofList _).symm
  -- a text whose rest is empty is as long as the prefix
  have hsize : ∀ s r : String, s = String.ofList (a.toList.take n) ++ r → r = "" →
      String.utf8Len (a.toList.take n) = s.utf8ByteSize := by
    rintro s r rfl rfl
    simp [String.utf8ByteSize_ofList]
  refine ⟨hend ▸ String.Pos.Raw.isValid_iff_exists_append.2 ⟨_, _, ha, rfl⟩,
    hend ▸ String.Pos.Raw.isValid_iff_exists_append.2 ⟨_, _, hb, rfl⟩,
    _, _, _, ha, hb, String.utf8ByteSize_ofList _, ?_⟩
  rcases hmax with h | h | h
  · exact .inl (hsize a _ ha (by simp [h]))
  · exact .inr (.inl (hsize b _ hb (by simp [h])))
  · exact .inr (.inr (by simpa [List.head?_drop] using h))

example : commonPrefixLen "café".toList "cafè".toList = 3 := by decide +kernel

end Routing.Text
