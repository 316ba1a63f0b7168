import Routing.Regex.Property
/-!
# Reading a regex

`Pattern.parse` reads the regex dialect of the route constraints into a syntax tree, or says why
the text is no regex. The dialect is the common one of leftmost-first engines: alternation,
groups (capturing, non-capturing, named, atomic), lookahead and fixed-width lookbehind, greedy,
lazy and possessive quantifiers with counted forms, bracket expressions with ranges, nested
classes and set operators, backslash classes and escapes, back references, and inline flags
`i m s U x`.

Rules that decide whether a text is accepted:
* a `{` that does not open a well-formed count is an ordinary character, and so is a `{` with
  nothing before it to repeat;
* a quantifier needs an atom before it: a character, a set, a group or a back reference; an
  assertion, a lookaround, an empty group or another quantifier is refused;
* a count `{n,m}` needs `n ≤ m`;
* a backslash before an unknown letter or digit is refused, before any other character it
  stands for that character;
* groups nest at most 63 deep.

The reader keeps an explicit stack of open groups, so it is one loop over the text.
-/

namespace Routing.Regex

open Routing.Unicode

/-- Why a text is no regex. -/
inductive RegexError where
  | unclosedGroup
  | unopenedGroup
  | unclosedClass
  | nothingToRepeat
  | badRepeatRange
  | badEscape
  | trailingBackslash
  | unknownProperty
  | badRange
  | badClass
  | tooDeep
  | badBackref
  | badGroupName
  | badFlag
  | variableLookbehind
  | badCodePoint
deriving Repr, DecidableEq

/-- What a backslash sequence stands for. -/
inductive Escape where
  | char (c : Char)
  | set (s : CharSet)
  | assert (a : Assertion)
  | backref (index : Nat)
  | namedBackref (name : String)
  /-- `\K`, which only moves the start of the whole match. -/
  | keep
deriving Repr

/-- The value of a hexadecimal digit. -/
def hexValue? (c : Char) : Option Nat :=
  if '0' ≤ c ∧ c ≤ '9' then some (c.toNat - '0'.toNat)
  else if 'a' ≤ c ∧ c ≤ 'f' then some (c.toNat - 'a'.toNat + 10)
  else if 'A' ≤ c ∧ c ≤ 'F' then some (c.toNat - 'A'.toNat + 10)
  else none

/-- The number a list of hexadecimal digits spells, if all are digits. -/
def hexNumber? (ds : List Char) : Option Nat :=
  ds.foldlM (fun acc d => (hexValue? d).map (acc * 16 + ·)) 0

/-- The character with a code point, if it is a Unicode scalar value. -/
def charOfCode? (n : Nat) : Option Char :=
  if n.isValidChar then some (Char.ofNat n) else none

/-- The rest of a hexadecimal escape after `\x`, `\u` or `\U`: exactly `digits` hexadecimal
digits, or one to eight of them in braces. -/
def hexEscape (digits : Nat) (cs : List Char) : Except RegexError (Escape × List Char) := do
  let fixed := cs.take digits
  let (ds, rest) ←
    if fixed.length = digits ∧ fixed.all (fun c => (hexValue? c).isSome) then
      pure (fixed, cs.drop digits)
    else match cs with
      | '\x7b' :: t =>
        let ds := t.takeWhile (· != '\x7d')
        let rest := t.dropWhile (· != '\x7d')
        if rest.isEmpty || ds.isEmpty || ds.length > 8 || !ds.all (fun c => (hexValue? c).isSome)
        then throw .badEscape
        else pure (ds, rest.drop 1)
      | _ => throw .badEscape
  match (hexNumber? ds).bind charOfCode? with
  | some c => pure (.char c, rest)
  | none => throw .badCodePoint

/-- Whether `c` may stand in a group name. -/
def isNameChar (c : Char) : Bool := c.isAlphanum || c == '_'

/-- A group name closed by `close`: a letter or `_` first, then letters, digits and `_`. -/
def readName (close : Char) (cs : List Char) : Option (String × List Char) :=
  let name := cs.takeWhile isNameChar
  match cs.dropWhile isNameChar, name with
  | c :: rest, first :: _ =>
    if c == close && !first.isDigit then some (String.ofList name, rest) else none
  | _, _ => none

/-- The named property after `\p` or `\P`: one letter, or a name in braces. -/
def propertyEscape (negated : Bool) (cs : List Char) : Except RegexError (Escape × List Char) := do
  let (name, rest) ← match cs with
    | '\x7b' :: t =>
      match t.dropWhile (· != '\x7d') with
      | _ :: rest => pure (String.ofList (t.takeWhile (· != '\x7d')), rest)
      | [] => throw .unknownProperty
    | c :: rest => pure (String.singleton c, rest)
    | [] => throw .badEscape
  match propertySet? name with
  | some s => pure (.set (if negated then .compl s else s), rest)
  | none => throw .unknownProperty

/-- The meaning of the text after a backslash. Inside a bracket expression (`inClass`) the
assertions and references are not available. -/
def readEscape (inClass : Bool) : List Char → Except RegexError (Escape × List Char)
  | [] => throw .trailingBackslash
  | c :: rest =>
    if c.isDigit then
      let ds := (c :: rest).takeWhile Char.isDigit
      let n := ds.foldl (fun acc d => acc * 10 + (d.toNat - '0'.toNat)) 0
      if inClass || n = 0 then throw .badEscape
      else pure (.backref n, (c :: rest).dropWhile Char.isDigit)
    else match c with
      | 'k' =>
        if inClass then throw .badEscape else
        match rest with
        | '<' :: t =>
          match readName '>' t with
          | some (name, r) => pure (.namedBackref name, r)
          | none => throw .badGroupName
        | _ => throw .badEscape
      | 'A' => if inClass then throw .badEscape else pure (.assert .startText, rest)
      | 'z' => if inClass then throw .badEscape else pure (.assert .endText, rest)
      | 'b' =>
        match inClass, rest with
        | true, _ | _, '\x7b' :: _ => throw .badEscape
        | false, _ => pure (.assert .wordBoundary, rest)
      | 'B' =>
        match inClass, rest with
        | true, _ | _, '\x7b' :: _ => throw .badEscape
        | false, _ => pure (.assert .notWordBoundary, rest)
      | '<' => if inClass then pure (.char c, rest) else pure (.assert .wordStart, rest)
      | '>' => if inClass then pure (.char c, rest) else pure (.assert .wordEnd, rest)
      | 'K' => if inClass then throw .badEscape else pure (.keep, rest)
      | 'G' => if inClass then throw .badEscape else pure (.assert .startText, rest)
      | 'd' => pure (.set (.perl .digit), rest)
      | 'D' => pure (.set (.compl (.perl .digit)), rest)
      | 'w' => pure (.set (.perl .word), rest)
      | 'W' => pure (.set (.compl (.perl .word)), rest)
      | 's' => pure (.set (.perl .space), rest)
      | 'S' => pure (.set (.compl (.perl .space)), rest)
      | 'h' => pure (.set (.ascii .xdigit), rest)
      | 'H' => pure (.set (.compl (.ascii .xdigit)), rest)
      | 'x' => hexEscape 2 rest
      | 'u' => hexEscape 4 rest
      | 'U' => hexEscape 8 rest
      | 'p' => propertyEscape false rest
      | 'P' => propertyEscape true rest
      | 'a' => pure (.char (Char.ofNat 7), rest)
      | 'f' => pure (.char (Char.ofNat 12), rest)
      | 't' => pure (.char '\t', rest)
      | 'n' => pure (.char '\n', rest)
      | 'r' => pure (.char '\r', rest)
      | 'v' => pure (.char (Char.ofNat 11), rest)
      | 'e' => pure (.char (Char.ofNat 27), rest)
      | _ => if c.isAlphanum then throw .badEscape else pure (.char c, rest)

/-! ## Bracket expressions -/

/-- The set operators of bracket expressions. -/
inductive SetOp where
  | inter
  | diff
  | symmDiff
deriving Repr, DecidableEq

/-- Applies a set operator. -/
def SetOp.apply : SetOp → CharSet → CharSet → CharSet
  | .inter, a, b => .inter a b
  | .diff, a, b => .diff a b
  | .symmDiff, a, b => .symmDiff a b

/-- One member of a bracket expression that can end a range: a character or a set. -/
def classAtom : List Char → Except RegexError (Escape × List Char)
  | '\\' :: rest => readEscape true rest
  | c :: rest => pure (.char c, rest)
  | [] => throw .unclosedClass

/-- A named ASCII class `[:name:]` or `[:^name:]`, read after its opening `[:`. -/
def asciiClass? (cs : List Char) : Option (CharSet × List Char) :=
  let (negated, cs) := match cs with
    | '^' :: t => (true, t)
    | _ => (false, cs)
  let name := cs.takeWhile (· != ':')
  match cs.dropWhile (· != ':') with
  | ':' :: ']' :: rest =>
    (AsciiClass.ofName? (String.ofList name)).map fun k =>
      (if negated then .compl (.ascii k) else .ascii k, rest)
  | _ => none

mutual

/-- A bracket expression read after its `[`, up to and with its `]`. -/
def classBody : Nat → List Char → Except RegexError (CharSet × List Char)
  | 0, _ => throw .unclosedClass
  | fuel + 1, cs =>
    match cs with
    | '^' :: t => do
      let (s, rest) ← classMembers fuel t none .empty true
      pure (.compl s, rest)
    | _ => classMembers fuel cs none .empty true

/-- The members of a bracket expression. `acc` is the union read since the last set operator,
`lhs` the operand and operator before it, and `first` marks the first position, where `]` is
an ordinary character. -/
def classMembers : Nat → List Char → Option (SetOp × CharSet) → CharSet → Bool →
    Except RegexError (CharSet × List Char)
  | 0, _, _, _, _ => throw .unclosedClass
  | fuel + 1, cs, lhs, acc, first =>
    let close (acc : CharSet) : CharSet :=
      match lhs with
      | some (op, l) => op.apply l acc
      | none => acc
    match cs with
    | [] => throw .unclosedClass
    | ']' :: rest =>
      if first then classMembers fuel rest lhs (.union acc (.single ']')) false
      else pure (close acc, rest)
    | '&' :: '&' :: rest => classMembers fuel rest (some (.inter, close acc)) .empty false
    | '-' :: '-' :: rest => classMembers fuel rest (some (.diff, close acc)) .empty false
    | '~' :: '~' :: rest => classMembers fuel rest (some (.symmDiff, close acc)) .empty false
    | '[' :: rest =>
      match rest with
      | ':' :: t =>
        match asciiClass? t with
        | some (s, r) => classMembers fuel r lhs (.union acc s) false
        | none => do
          let (s, r) ← classBody fuel rest
          classMembers fuel r lhs (.union acc s) false
      | _ => do
        let (s, r) ← classBody fuel rest
        classMembers fuel r lhs (.union acc s) false
    | _ => do
      let (a, r) ← classAtom cs
      match a, r with
      | .char lo, '-' :: r2 =>
        match r2 with
        | ']' :: _ | '-' :: _ => classMembers fuel r lhs (.union acc (.single lo)) false
        | _ => do
          let (b, r3) ← classAtom r2
          match b with
          | .char hi =>
            if lo ≤ hi then classMembers fuel r3 lhs (.union acc (.range lo hi)) false
            else throw .badRange
          | _ => throw .badRange
      | .char c, _ => classMembers fuel r lhs (.union acc (.single c)) false
      | .set s, '-' :: r2 =>
        match r2 with
        | ']' :: _ | '-' :: _ => classMembers fuel r lhs (.union acc s) false
        | _ => throw .badRange
      | .set s, _ => classMembers fuel r lhs (.union acc s) false
      | _, _ => throw .badClass

end

/-- Where a bracket expression ends when only unescaped brackets are counted, read after its
`[`: a `]` right after the `[` or `[^` is an ordinary character. -/
def bracketEnd : Nat → Nat → List Char → Except RegexError (List Char)
  | 0, _, _ => throw .unclosedClass
  | fuel + 1, depth, cs =>
    match cs with
    | [] => throw .unclosedClass
    | '\\' :: rest => do
      let (_, r) ← readEscape true rest
      bracketEnd fuel depth r
    | '[' :: rest => bracketEnd fuel (depth + 1) rest
    | ']' :: rest => if depth ≤ 1 then pure rest else bracketEnd fuel (depth - 1) rest
    | _ :: rest => bracketEnd fuel depth rest

/-- A bracket expression read after its `[`. The expression must end where counting brackets
says it ends. -/
def readClass (cs : List Char) : Except RegexError (CharSet × List Char) := do
  let afterNeg := match cs with
    | '^' :: t => t
    | _ => cs
  let start := match afterNeg with
    | ']' :: t => t
    | _ => afterNeg
  let stop ← bracketEnd (start.length + 1) 1 start
  let (s, rest) ← classBody (cs.length + 1) cs
  if rest.length = stop.length then pure (s, rest) else throw .badClass

/-! ## Counts -/

/-- A decimal number at the front of the text. -/
def leadingNumber (cs : List Char) : Option (Nat × List Char) :=
  let ds := cs.takeWhile Char.isDigit
  if ds.isEmpty then none
  else some (ds.foldl (fun acc d => acc * 10 + (d.toNat - '0'.toNat)) 0, cs.dropWhile Char.isDigit)

/-- The bounds of a count read after its `{`: `{n}`, `{n,}`, `{n,m}` or `{,m}`; `none` when the
text is no count. -/
def readCount (cs : List Char) : Option (Nat × Option Nat × List Char) :=
  let lower : Option (Nat × List Char) := match cs with
    | ',' :: _ => some (0, cs)
    | _ => leadingNumber cs
  match lower with
  | none => none
  | some (lo, rest) =>
    match rest with
    | '\x7d' :: r => some (lo, some lo, r)
    | ',' :: r =>
      match leadingNumber r with
      | some (hi, '\x7d' :: r2) => some (lo, some hi, r2)
      | some _ => none
      | none =>
        match r with
        | '\x7d' :: r2 => some (lo, none, r2)
        | _ => none
    | _ => none

/-! ## The reader -/

/-- Inline flags. -/
structure Flags where
  /-- `i`: compare letters up to case. -/
  fold : Bool := false
  /-- `m`: `^` and `$` also match at line ends. -/
  multiLine : Bool := false
  /-- `s`: `.` also matches a line feed. -/
  dotNewline : Bool := false
  /-- `U`: quantifiers are lazy unless marked with `?`. -/
  swapGreed : Bool := false
  /-- `x`: blanks and `#` comments are ignored. -/
  extended : Bool := false
deriving Repr

/-- What the last piece of the current branch is: it decides what a quantifier after it means. -/
inductive Last where
  /-- Nothing yet, or a piece that already has its quantifier. -/
  | none
  /-- A piece a quantifier may repeat. -/
  | atom
  /-- An assertion, lookaround or empty group, which no quantifier may repeat. -/
  | fixed
deriving Repr, DecidableEq

/-- The alternatives of a group read so far. -/
structure Branches where
  /-- Finished alternatives, the latest first. -/
  alts : List Regex := []
  /-- Pieces of the current alternative, the latest first. -/
  items : List Regex := []
  last : Last := .none
deriving Repr

/-- A sequence of pieces as one regex. -/
def seqOf : List Regex → Regex
  | [] => .empty
  | [r] => r
  | r :: rs => .concat r (seqOf rs)

/-- Alternatives tried in order as one regex. -/
def altOf : List Regex → Regex
  | [] => .empty
  | [r] => r
  | r :: rs => .alt r (altOf rs)

/-- The current alternative as one regex. -/
def Branches.current (b : Branches) : Regex := seqOf b.items.reverse

/-- All alternatives as one regex. -/
def Branches.toRegex (b : Branches) : Regex := altOf (b.current :: b.alts).reverse

/-- Whether nothing was read into these alternatives. -/
def Branches.isBlank (b : Branches) : Bool := b.alts.isEmpty && b.items.isEmpty

/-- How an open group closes. -/
inductive Opener where
  | capture (index : Nat)
  | plain
  | atomic
  | lookahead (negated : Bool)
  | lookbehind (negated : Bool)
deriving Repr

/-- An open group: how it closes, the flags outside it and the alternatives around it. -/
structure Frame where
  opener : Opener
  flags : Flags
  outer : Branches
deriving Repr

/-- The state of the reader. -/
structure Reader where
  frames : List Frame := []
  cur : Branches := {}
  flags : Flags := {}
  groups : Nat := 0
  names : List (String × Nat) := []
deriving Repr

/-- The deepest nesting of groups, counting the group being opened. -/
def maxDepth : Nat := 63

/-- Whether a quantifier may repeat the regex a group produced. -/
def repeatable : Regex → Bool
  | .empty | .assert _ | .lookahead _ _ | .lookbehind _ _ _ => false
  | _ => true

namespace Reader

/-- Appends a piece to the current alternative. -/
def push (r : Reader) (x : Regex) (last : Last) : Reader :=
  { r with cur := { r.cur with items := x :: r.cur.items, last := last } }

/-- Marks the end of a piece that adds nothing, such as a flag group. -/
def mark (r : Reader) (last : Last) : Reader :=
  { r with cur := { r.cur with last := last } }

/-- Opens a group. -/
def «open» (r : Reader) (opener : Opener) (inner : Flags) : Reader :=
  { r with
    frames := { opener, flags := r.flags, outer := r.cur } :: r.frames
    cur := {}
    flags := inner }

/-- Applies a quantifier with bounds `lo` and `hi` to the last piece; `cs` follows it. -/
def quantify (r : Reader) (lo : Nat) (hi : Option Nat) (cs : List Char) :
    Except RegexError (Reader × List Char) :=
  match r.cur.last, r.cur.items with
  | .atom, x :: xs =>
    if hi.any (· < lo) then throw .badRepeatRange else
    let (lazy, cs) := match cs with
      | '?' :: t => (true, t)
      | _ => (false, cs)
    let node := Regex.loop x lo hi (lazy == r.flags.swapGreed)
    let (node, cs) := match cs with
      | '+' :: t => (Regex.atomic node, t)
      | _ => (node, cs)
    pure ({ r with cur := { r.cur with items := node :: xs, last := .none } }, cs)
  | _, _ => throw .nothingToRepeat

/-- Reads inline flags after `(?` up to `)` or `:`. Answers the flags, whether the text ended
with `)` (the flags then hold to the end of the enclosing group), and the rest. `count` is the
number of flag characters read and `negated` whether a `-` was read. -/
def readFlags : List Char → Flags → Bool → Nat → Except RegexError (Flags × Bool × List Char)
  | [], _, _, _ => throw .unclosedGroup
  | c :: rest, fl, negated, count =>
    match c with
    | ')' =>
      if count = 0 || (negated && count = 1) then throw .badFlag else pure (fl, true, rest)
    | ':' => if negated && count = 1 then throw .badFlag else pure (fl, false, rest)
    | 'i' => readFlags rest { fl with fold := !negated } negated (count + 1)
    | 'm' => readFlags rest { fl with multiLine := !negated } negated (count + 1)
    | 's' => readFlags rest { fl with dotNewline := !negated } negated (count + 1)
    | 'U' => readFlags rest { fl with swapGreed := !negated } negated (count + 1)
    | 'x' => readFlags rest { fl with extended := !negated } negated (count + 1)
    | 'u' => if negated then throw .badFlag else readFlags rest fl negated (count + 1)
    | '-' => if negated then throw .badFlag else readFlags rest fl true (count + 1)
    | _ => throw .badFlag

/-- Reads what follows a `(`. -/
def openGroup (r : Reader) (cs : List Char) : Except RegexError (Reader × List Char) :=
  if r.frames.length + 1 > maxDepth then throw .tooDeep else
  let capture (r : Reader) (name : Option String) (rest : List Char) : Reader × List Char :=
    let index := r.groups + 1
    let names := match name with
      | some n => (n, index) :: r.names
      | none => r.names
    ({ r with groups := index, names := names }.open (.capture index) r.flags, rest)
  match cs with
  | '?' :: '=' :: t => pure (r.open (.lookahead false) r.flags, t)
  | '?' :: '!' :: t => pure (r.open (.lookahead true) r.flags, t)
  | '?' :: '<' :: '=' :: t => pure (r.open (.lookbehind false) r.flags, t)
  | '?' :: '<' :: '!' :: t => pure (r.open (.lookbehind true) r.flags, t)
  | '?' :: '<' :: t =>
    match readName '>' t with
    | some (name, rest) => pure (capture r (some name) rest)
    | none => throw .badGroupName
  | '?' :: 'P' :: '<' :: t =>
    match readName '>' t with
    | some (name, rest) => pure (capture r (some name) rest)
    | none => throw .badGroupName
  | '?' :: 'P' :: '=' :: t =>
    match readName ')' t with
    | some (name, rest) =>
      match r.names.lookup name with
      | some i => pure (r.push (.backref i r.flags.fold) .atom, rest)
      | none => throw .badBackref
    | none => throw .badGroupName
  | '?' :: '>' :: t => pure (r.open .atomic r.flags, t)
  | '?' :: t => do
    let (fl, closes, rest) ← readFlags t r.flags false 0
    if closes then pure ({ r with flags := fl }.mark .fixed, rest)
    else pure (r.open .plain fl, rest)
  | _ => pure (capture r none cs)

/-- Closes the innermost open group at a `)`. -/
def closeGroup (r : Reader) (cs : List Char) : Except RegexError (Reader × List Char) :=
  match r.frames with
  | [] => throw .unopenedGroup
  | f :: fs => do
    let body := r.cur.toRegex
    let node? : Option Regex ← match f.opener with
      | .capture i => pure (some (.group i body))
      | .plain => pure (if r.cur.isBlank then none else some body)
      | .atomic => pure (some (.atomic body))
      | .lookahead negated => pure (some (.lookahead negated body))
      | .lookbehind negated =>
        match body.width? with
        | some w => pure (some (.lookbehind negated w body))
        | none => throw .variableLookbehind
    let outer : Reader := { r with frames := fs, cur := f.outer, flags := f.flags }
    match node? with
    | some node => pure (outer.push node (if node.repeatable then .atom else .fixed), cs)
    | none => pure (outer.mark .fixed, cs)

/-- Reads one character `c` of the regex and what it needs of the rest `cs`. -/
def step (r : Reader) (c : Char) (cs : List Char) : Except RegexError (Reader × List Char) :=
  let fold := r.flags.fold
  if r.flags.extended && (c.isWhitespace || c == Char.ofNat 11 || c == Char.ofNat 12) then
    pure (r, cs)
  else if r.flags.extended && c == '#' then pure (r, cs.dropWhile (· != '\n'))
  else match c with
  | '(' => r.openGroup cs
  | ')' => r.closeGroup cs
  | '|' => pure ({ r with cur := { alts := r.cur.current :: r.cur.alts } }, cs)
  | '*' => r.quantify 0 none cs
  | '+' => r.quantify 1 none cs
  | '?' => r.quantify 0 (some 1) cs
  | '\x7b' =>
    match readCount cs, r.cur.last with
    | some (lo, hi, rest), .atom => r.quantify lo hi rest
    | some _, .fixed => throw .nothingToRepeat
    | _, _ => pure (r.push (.char c fold) .atom, cs)
  | '[' => do
    let (s, rest) ← readClass cs
    pure (r.push (.set s fold) .atom, rest)
  | '\\' => do
    let (e, rest) ← readEscape false cs
    match e with
    | .char d => pure (r.push (.char d fold) .atom, rest)
    | .set s => pure (r.push (.set s fold) .atom, rest)
    | .assert a => pure (r.push (.assert a) .fixed, rest)
    | .backref i => pure (r.push (.backref i fold) .atom, rest)
    | .namedBackref name =>
      match r.names.lookup name with
      | some i => pure (r.push (.backref i fold) .atom, rest)
      | none => throw .badBackref
    | .keep => pure (r.mark .fixed, rest)
  | '.' => pure (r.push (.any r.flags.dotNewline) .atom, cs)
  | '^' => pure (r.push (.assert (if r.flags.multiLine then .startLine else .startText)) .fixed, cs)
  | '$' => pure (r.push (.assert (if r.flags.multiLine then .endLine else .endText)) .fixed, cs)
  | _ => pure (r.push (.char c fold) .atom, cs)

/-- The regex read so far, once the text has ended. -/
def finish (r : Reader) : Except RegexError Pattern :=
  if !r.frames.isEmpty then throw .unclosedGroup else
  let body := r.cur.toRegex
  if body.maxBackref > r.groups then throw .badBackref
  else pure { body, groups := r.groups }

/-- Reads the rest `cs` of the text. Every step consumes at least one character. -/
def run (r : Reader) (cs : List Char) : Except RegexError Pattern :=
  match cs with
  | [] => r.finish
  | c :: rest => do
    let (r', rest') ← r.step c rest
    if _ : rest'.length < rest.length + 1 then r'.run rest' else throw .badClass
termination_by cs.length

end Reader

/-- Reads a regex, or says why the text is none. -/
def Pattern.parse (src : String) : Except RegexError Pattern :=
  ({} : Reader).run src.toList

end Routing.Regex
