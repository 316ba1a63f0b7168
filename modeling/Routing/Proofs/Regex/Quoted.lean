import Routing.Regex.Parse
import Routing.Regex.Quote
/-!
# Reading quoted text

`quote t` writes a backslash before each character of `t` that has a meaning of its own in a
regex. The reader reads the quoted text back as the characters of `t`, one exact `char` piece
each (`parse_quote`): a character that needs no backslash falls through every case of
`Reader.step` to the last one, and a backslash before one that does is read by `readEscape` as the
character itself.

The reader is a loop over the text; `Reader.run_of_step` runs it one character at a time, so the
lemmas here say which reader a piece of text leads to, whatever follows it.
-/

namespace Routing.Regex

/-- The pieces of a literal text: its characters in order, compared exactly. -/
def literal (d : List Char) : List Regex := d.map fun c => .char c false

@[simp] theorem literal_nil : literal [] = [] := rfl

@[simp] theorem literal_cons (c : Char) (d : List Char) :
    literal (c :: d) = .char c false :: literal d := rfl

theorem maxBackref_seqOf {l : List Regex} (h : ∀ r ∈ l, r.maxBackref = 0) : (seqOf l).maxBackref = 0 := by
  induction l with
  | nil => rfl
  | cons r rs ih =>
    have hr := h r List.mem_cons_self
    have hrs := ih fun x hx => h x (List.mem_cons_of_mem r hx)
    cases rs with
    | nil => exact hr
    | cons _ _ => simp [seqOf, Regex.maxBackref, hr, hrs]

theorem maxBackref_literal (d : List Char) : (seqOf (literal d)).maxBackref = 0 :=
  maxBackref_seqOf fun r hr => by
    obtain ⟨c, -, rfl⟩ := List.mem_map.1 hr
    rfl

namespace Reader

/-- The reader takes one step at a time: a step that leaves less text goes on with it. -/
theorem run_of_step {r r' : Reader} {c : Char} {cs cs' : List Char} (h : r.step c cs = .ok (r', cs'))
    (hlen : cs'.length ≤ cs.length) : r.run (c :: cs) = r'.run cs' := by
  rw [Reader.run]
  simp only [h, bind, Except.bind]
  rw [dif_pos (by omega)]

/-- A character with no meaning of its own stands for itself. -/
theorem step_plain {r : Reader} (hf : r.flags = {}) {c : Char} (hc : isMeta c = false) (cs : List Char) :
    r.step c cs = .ok (r.push (.char c false) .atom, cs) := by
  simp only [isMeta, Bool.or_eq_false_iff, beq_eq_false_iff_ne] at hc
  obtain ⟨⟨⟨⟨⟨⟨⟨⟨⟨⟨⟨⟨⟨h1, h2⟩, h3⟩, h4⟩, h5⟩, h6⟩, h7⟩, h8⟩, h9⟩, h10⟩, h11⟩, h12⟩, h13⟩, h14⟩ := hc
  simp [step, hf]
  rfl

theorem readEscape_meta {c : Char} (hc : isMeta c = true) (cs : List Char) :
    readEscape false (c :: cs) = .ok (.char c, cs) := by
  simp only [isMeta, Bool.or_eq_true, beq_iff_eq] at hc
  rcases hc with ((((((((((((h | h) | h) | h) | h) | h) | h) | h) | h) | h) | h) | h) | h) | h <;>
    subst h <;> rfl

/-- A backslash before a character with a meaning of its own makes it stand for itself. -/
theorem step_escaped {r : Reader} (hf : r.flags = {}) {c : Char} (hc : isMeta c = true) (cs : List Char) :
    r.step '\\' (c :: cs) = .ok (r.push (.char c false) .atom, cs) := by
  simp [step, hf, readEscape_meta hc, bind, Except.bind, pure, Except.pure]

/-- Quoted text adds its characters to the current alternative, whatever group is open. -/
theorem run_quoteChars {r : Reader} (hf : r.flags = {}) (d rest : List Char) :
    r.run (quoteChars d ++ rest) =
      ({ r with
        cur := { r.cur with
          items := (literal d).reverse ++ r.cur.items
          last := if d = [] then r.cur.last else .atom } } : Reader).run rest := by
  induction d generalizing r with
  | nil => rfl
  | cons c d ih =>
    -- after the first character the rest of the text is read by the induction hypothesis
    have hstep : ∀ r' : Reader, r'.flags = {} →
        (r'.push (.char c false) .atom).run (quoteChars d ++ rest) =
          ({ r' with
            cur := { r'.cur with
              items := (literal (c :: d)).reverse ++ r'.cur.items
              last := .atom } } : Reader).run rest := by
      intro r' hf'
      rw [ih (show (r'.push (.char c false) .atom).flags = {} from hf')]
      simp [push, literal]
    cases hc : isMeta c
    · rw [quoteChars, hc, if_neg (by simp), List.cons_append, run_of_step (step_plain hf hc _) (Nat.le_refl _),
        hstep r hf]
      simp
    · rw [quoteChars, hc, if_pos rfl, List.cons_append, List.cons_append,
        run_of_step (step_escaped hf hc _) (by simp), hstep r hf]
      simp

/-- A quoted text that is not empty does not start with `?`, so a `(` before it opens a
capture group. -/
theorem quoteChars_ne_question {d : List Char} (hd : d ≠ []) (rest t : List Char) :
    quoteChars d ++ rest ≠ '?' :: t := by
  obtain ⟨c, d, rfl⟩ := List.exists_cons_of_ne_nil hd
  cases hc : isMeta c
  · simp only [quoteChars, hc, Bool.false_eq_true, if_false, List.cons_append, ne_eq,
      List.cons.injEq, not_and]
    rintro rfl
    simp [isMeta] at hc
  · simp [quoteChars, hc]

/-- At the end of the text a reader with no open group answers its alternatives. -/
theorem run_nil_of_top (b : Branches) (g : Nat) (hb : b.toRegex.maxBackref = 0) :
    ({ cur := b, groups := g } : Reader).run [] = .ok ⟨b.toRegex, g⟩ := by
  rw [Reader.run]
  simp [finish, hb]
  rfl

end Reader

/-- A quoted text reads back as its characters. -/
theorem parse_quote (t : String) : Pattern.parse (quote t) = .ok ⟨seqOf (literal t.toList), 0⟩ := by
  let b : Branches := { items := (literal t.toList).reverse, last := if t.toList = [] then .none else .atom }
  have hb : b.toRegex = seqOf (literal t.toList) := by
    simp [b, Branches.toRegex, Branches.current, altOf]
  have h := @Reader.run_quoteChars {} rfl t.toList []
  rw [List.append_nil] at h
  rw [Pattern.parse, quote, String.toList_ofList, h]
  dsimp only
  rw [List.append_nil, ← hb]
  exact Reader.run_nil_of_top b 0 (by rw [hb]; exact maxBackref_literal _)

end Routing.Regex
