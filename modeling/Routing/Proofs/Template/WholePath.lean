import Mathlib.Data.List.TakeWhile
import Routing.Proofs.Regex.PathGroups
import Routing.Proofs.Router.Params
import Routing.Template.PathRegex
/-!
# The whole-path regex of a simple template

A simple template is made of `/`-separated segments, each literal text, the wildcard `*` as the
last segment, or one parameter `:name` between two literal texts, marked optional by a `?` only
in the last segment (`Segment.Simple`). For such a template `PathRegex.ofTemplate` succeeds, its
names are the parameters' names in order, and its regex captures exactly the values a path was
built from: each parameter's value in its own segment and the wildcard's value as the rest of the
path, with or without one more `/` at the end (`simple_template_captures`).

The proof follows the builder: the template splits back into its segments
(`splitSlash_templateOf`), each segment gives its regex text and names (`segmentsRegex_simple`),
and the regex text reads as the regex of the segments' layout (`parse_simple`): the literal text
before the first parameter, a group per parameter with the literal after it, and the wildcard's
group, which is a `Regex.pathPattern`. The path of some values is the layout's lead with the values
joined by its literals (`renderPath_eq`), and every literal but the last holds a `/`
(`layout_separated`), which is what `pathPattern_captures_params` and `pathPattern_captures_rest`
ask for.
-/

namespace Routing

open Routing.Regex

/-- A `/`-separated segment of a template: literal text, one parameter `:name` between the literal
texts `pre` and `post` (`marked` when a `?` follows the name), or the wildcard `*`. -/
inductive Segment where
  | text (t : List Char)
  | param (pre name post : List Char) (marked : Bool)
  | wildcard
deriving DecidableEq

namespace Segment

/-- The segment as a template writes it. -/
def spelling : Segment → List Char
  | text t => t
  | param pre name post marked => pre ++ ':' :: name ++ (if marked then '?' :: post else post)
  | wildcard => ['*']

/-- A character that may stand in the literal text around a parameter. -/
def IsPlain (c : Char) : Prop := c ≠ '/' ∧ c ≠ ':' ∧ c ≠ '\x7b' ∧ c ≠ '\x7d' ∧ c ≠ '?'

/-- A segment of a simple template; `isLast` says whether it ends the template, the only place
for the wildcard and for a `?` after a parameter's name. A plain text holds no `:`; a parameter's
name is a maximal run of letters, digits and `_`, with no constraint after it. -/
def SimpleAt (isLast : Bool) : Segment → Prop
  | text t => '/' ∉ t ∧ ':' ∉ t ∧ t ≠ ['*']
  | param pre name post marked => (∀ c ∈ pre ++ post, IsPlain c) ∧ name ≠ [] ∧
      (∀ c ∈ name, isParamNameChar c = true) ∧
      (marked = false → ∀ c ∈ post.head?, isParamNameChar c = false) ∧ (marked = true → isLast = true)
  | wildcard => isLast = true

/-- The segments of a simple template, each simple where it stands. -/
def Simple : List Segment → Prop
  | [] => True
  | s :: segs => s.SimpleAt segs.isEmpty ∧ Simple segs

/-- Whether the segment captures a value: a parameter or the wildcard. -/
def captures : Segment → Bool
  | text _ => false
  | _ => true

/-- The names of the segment's parameters; the wildcard's is `*`. -/
def names : Segment → List String
  | text _ => []
  | param _ name _ _ => [String.ofList name]
  | wildcard => ["*"]

/-- The values the segment's group takes: a parameter's is a non-empty text without `/`, the
wildcard's a text without a line feed. -/
def Fits : Segment → List Char → Prop
  | text _, _ => False
  | param .., v => v ≠ [] ∧ '/' ∉ v
  | wildcard, v => '\n' ∉ v

/-- The segment's regex text; an empty segment has none. -/
def regexText : Segment → Option (List Char)
  | text t => if t = [] then none else some (quoteChars t)
  | param pre _ post _ => some (quoteChars pre ++ ['(', '[', '^', '/', ']', '+', ')'] ++ quoteChars post)
  | wildcard => some ['(', '.', '*', ')']

end Segment

/-- The template the segments spell, joined by `/`. -/
def templateOf (segs : List Segment) : List Char := ['/'].intercalate (segs.map Segment.spelling)

/-- The non-empty segments of a path, each parameter and the wildcard replaced by the next of the
values `vs`. -/
def fill : List Segment → List (List Char) → List (List Char)
  | [], _ => []
  | .text t :: segs, vs => if t = [] then fill segs vs else t :: fill segs vs
  | .param pre _ post _ :: segs, vs => (pre ++ vs.headD [] ++ post) :: fill segs vs.tail
  | .wildcard :: segs, vs => vs.headD [] :: fill segs vs.tail

/-- The path the segments describe with the values `vs`: a `/`, then the non-empty segments with
their values, joined by `/`. -/
def renderPath (segs : List Segment) (vs : List (List Char)) : List Char :=
  '/' :: ['/'].intercalate (fill segs vs)

/-! ## Splitting the template -/

theorem Segment.slash_not_mem_spelling {s : Segment} {isLast : Bool} (h : s.SimpleAt isLast) :
    '/' ∉ s.spelling := by
  cases s with
  | text t => exact h.1
  | param pre name post marked =>
    obtain ⟨hplain, -, hname, -, -⟩ := h
    have hpre : '/' ∉ pre := fun hm => (hplain '/' (List.mem_append_left _ hm)).1 rfl
    have hpost : '/' ∉ post := fun hm => (hplain '/' (List.mem_append_right _ hm)).1 rfl
    have hname' : '/' ∉ name := fun hm => absurd (hname '/' hm) (by decide)
    cases marked <;> simp [spelling, hpre, hpost, hname']
  | wildcard => simp [spelling]

theorem Segment.Simple.slash_not_mem : ∀ {segs : List Segment}, Segment.Simple segs →
    ∀ l ∈ segs.map Segment.spelling, '/' ∉ l
  | [], _, _, hl => absurd hl List.not_mem_nil
  | _ :: _, ⟨hs, hsegs⟩, l, hl => by
    rcases List.mem_cons.1 hl with rfl | hl
    · exact Segment.slash_not_mem_spelling hs
    · exact Segment.Simple.slash_not_mem hsegs l hl

/-- A simple template splits at its `/` into its segments. -/
theorem splitSlash_templateOf {segs : List Segment} (h : Segment.Simple segs) (hne : segs ≠ []) :
    splitSlash (templateOf segs) = segs.map Segment.spelling :=
  List.splitOn_intercalate '/' h.slash_not_mem (by simpa using hne)

/-! ## The regex text of each segment -/

/-- Characters other than `:` are quoted one by one. -/
theorem segmentParts_plain (pattern : String) (isLast : Bool) :
    ∀ (pre rest : List Char) (out : String) (names : List String), ':' ∉ pre →
      segmentParts pattern isLast (pre ++ rest) out names =
        segmentParts pattern isLast rest (out ++ String.ofList (quoteChars pre)) names
  | [], rest, out, names, _ => by simp [quoteChars]
  | c :: pre, rest, out, names, h => by
    have hc : (c != ':') = true := bne_iff_ne.2 fun h' => h (h' ▸ List.mem_cons_self)
    have hpre : ':' ∉ pre := fun h' => h (List.mem_cons_of_mem _ h')
    rw [List.cons_append, segmentParts]
    simp only [hc, Bool.true_or, if_true]
    rw [segmentParts_plain pattern isLast pre rest _ names hpre, String.append_assoc]
    congr 2
    rw [← String.toList_inj]
    simp only [quote, String.toList_append, String.toList_ofList, String.toList_singleton,
      ← quoteChars_append, List.singleton_append]

/-- A parameter with no constraint becomes `([^/]+)`, and the text after it is quoted. -/
theorem segmentParts_param (pattern : String) (isLast : Bool) (out : String) (names : List String)
    {name post : List Char} (marked : Bool)
    (hname : name ≠ []) (hchars : ∀ c ∈ name, isParamNameChar c = true)
    (hend : marked = false → ∀ c ∈ post.head?, isParamNameChar c = false)
    (hmark : marked = true → isLast = true)
    (hpost : ':' ∉ post ∧ '\x7b' ∉ post ∧ '?' ∉ post) :
    segmentParts pattern isLast (':' :: name ++ (if marked then '?' :: post else post)) out names =
      .ok (out ++ "([^/]+)" ++ String.ofList (quoteChars post), names ++ [String.ofList name]) := by
  -- the name is the whole run of name characters after the `:`
  have htake : (name ++ (if marked then '?' :: post else post)).takeWhile isParamNameChar = name := by
    rw [List.takeWhile_append_of_pos hchars, List.append_right_eq_self]
    cases marked with
    | true => exact List.takeWhile_cons_of_neg (by decide)
    | false =>
      cases post with
      | nil => rfl
      | cons c t => exact List.takeWhile_cons_of_neg (by simp [hend rfl c rfl])
  have hnonempty : name.isEmpty = false := List.isEmpty_eq_false_iff.2 hname
  rw [List.cons_append, segmentParts]
  simp only [htake, bne_self_eq_false, hnonempty, Bool.or_false, List.drop_left, Bool.false_eq_true,
    if_false]
  -- past the name and its mark the text after the parameter is left, which opens no constraint
  have hplain : segmentParts pattern isLast post (out ++ "([^/]+)") (names ++ [String.ofList name]) =
      .ok (out ++ "([^/]+)" ++ String.ofList (quoteChars post), names ++ [String.ofList name]) := by
    have h := segmentParts_plain pattern isLast post [] (out ++ "([^/]+)") (names ++ [String.ofList name])
      hpost.1
    rw [List.append_nil] at h
    rw [h, segmentParts]
    rfl
  cases marked with
  | true =>
    simp only [if_true]
    rw [if_pos (hmark rfl)]
    simp only [pure_bind]
    split
    · exact absurd List.mem_cons_self hpost.2.1
    · rw [if_pos (by simp only [List.length_append, List.length_cons]; omega), hplain]
  | false =>
    simp only [Bool.false_eq_true, if_false]
    split
    · exact absurd List.mem_cons_self hpost.2.2
    · simp only [pure_bind]
      split
      · exact absurd List.mem_cons_self hpost.2.1
      · rw [if_pos (by simp only [List.length_append]; omega), hplain]

theorem Segment.not_mem_of_plain {pre post : List Char} (h : ∀ c ∈ pre ++ post, Segment.IsPlain c) :
    (':' ∉ pre ∧ '\x7b' ∉ pre) ∧ ':' ∉ post ∧ '\x7b' ∉ post ∧ '?' ∉ post := by
  refine ⟨⟨fun hm => ?_, fun hm => ?_⟩, fun hm => ?_, fun hm => ?_, fun hm => ?_⟩
  · exact (h _ (List.mem_append_left _ hm)).2.1 rfl
  · exact (h _ (List.mem_append_left _ hm)).2.2.1 rfl
  · exact (h _ (List.mem_append_right _ hm)).2.1 rfl
  · exact (h _ (List.mem_append_right _ hm)).2.2.1 rfl
  · exact (h _ (List.mem_append_right _ hm)).2.2.2.2 rfl

/-- A simple parameter segment gives its quoted texts around `([^/]+)`, and its name. -/
theorem segmentRegex_param (pattern : String) {isLast : Bool} {pre name post : List Char} {marked : Bool}
    (h : (Segment.param pre name post marked).SimpleAt isLast) :
    segmentRegex pattern isLast (Segment.param pre name post marked).spelling =
      .ok (String.ofList (quoteChars pre ++ ['(', '[', '^', '/', ']', '+', ')'] ++ quoteChars post),
        [String.ofList name]) := by
  obtain ⟨hplain, hname, hchars, hend, hmark⟩ := h
  obtain ⟨⟨hpre, hpreBrace⟩, hpost⟩ := Segment.not_mem_of_plain hplain
  -- no `{` in the segment, so no constraint is checked
  have hbrace : (Segment.param pre name post marked).spelling.dropWhile (· != '\x7b') = [] := by
    refine List.dropWhile_eq_nil_iff.2 fun c hc => bne_iff_ne.2 fun hc' => ?_
    subst hc'
    have hname' : '\x7b' ∉ name := fun hm => absurd (hchars _ hm) (by decide)
    cases marked <;> simp [Segment.spelling, hpreBrace, hpost.2.1, hname'] at hc
  unfold segmentRegex
  rw [hbrace]
  dsimp only
  rw [Segment.spelling, List.append_assoc, segmentParts_plain pattern isLast pre _ "" [] hpre,
    segmentParts_param pattern isLast _ [] marked hname hchars hend hmark hpost]
  congr 2
  rw [← String.toList_inj]
  simp

/-- What the builder's fold adds for each segment of a simple template: its regex text, if it is
not empty, and its names. -/
theorem foldlM_segments {f : List String × List String → List Char × Nat →
      Except RouteError (List String × List String)} (last : Nat)
    (hf : ∀ acc (s : Segment) (i : Nat), s.SimpleAt (i == last) →
      f acc (s.spelling, i) = .ok (acc.1 ++ (s.regexText.map String.ofList).toList, acc.2 ++ s.names)) :
    ∀ (segs : List Segment) (j : Nat) (acc : List String × List String), Segment.Simple segs →
      j + segs.length = last + 1 →
      ((segs.map Segment.spelling).zipIdx j).foldlM f acc =
        .ok (acc.1 ++ (segs.filterMap Segment.regexText).map String.ofList,
          acc.2 ++ segs.flatMap Segment.names)
  | [], j, acc, _, _ => by simp; rfl
  | s :: segs, j, acc, ⟨hs, hsegs⟩, hlen => by
    -- the index reaches `last` exactly at the final segment
    have hlast : (j == last) = segs.isEmpty := by
      cases segs <;> simp at hlen ⊢ <;> omega
    rw [List.map_cons, List.zipIdx_cons, List.foldlM_cons, hf acc s j (hlast ▸ hs)]
    simp only [bind, Except.bind]
    rw [foldlM_segments last hf segs (j + 1) _ hsegs (by simp at hlen; omega)]
    cases h : s.regexText <;> simp [h]

/-- A simple template's segments give their regex texts, the empty ones none, and their names. -/
theorem segmentsRegex_simple (pattern : String) {segs : List Segment} (h : Segment.Simple segs)
    (hne : segs ≠ []) :
    segmentsRegex pattern ((segs.map Segment.spelling).length - 1) (segs.map Segment.spelling) =
      .ok ((segs.filterMap Segment.regexText).map String.ofList, segs.flatMap Segment.names) := by
  have hlen : 0 < segs.length := List.length_pos_iff.2 hne
  unfold segmentsRegex
  refine (foldlM_segments ((segs.map Segment.spelling).length - 1) ?_ segs 0 ([], []) h ?_).trans ?_
  · intro acc s i hs
    obtain ⟨parts, names⟩ := acc
    cases s with
    | text t =>
      by_cases ht : t = []
      · subst ht
        simp [Segment.regexText, Segment.names, Segment.spelling]
        rfl
      · simp [Segment.regexText, Segment.names, Segment.spelling, ht, hs.2.1, hs.2.2, quote]
        rfl
    | param pre name post marked =>
      have hcolon : ':' ∈ (Segment.param pre name post marked).spelling := by
        cases marked <;> simp [Segment.spelling]
      have hstar : ((Segment.param pre name post marked).spelling == ['*']) = false := by
        refine beq_false_of_ne fun heq => ?_
        rw [heq] at hcolon
        simp at hcolon
      have hempty : (Segment.param pre name post marked).spelling.isEmpty = false :=
        List.isEmpty_eq_false_iff.2 (List.ne_nil_of_mem hcolon)
      dsimp only
      rw [if_neg (by simp [hempty]), if_neg (by simp [hstar]), if_pos (List.contains_iff_mem.2 hcolon),
        segmentRegex_param pattern hs]
      rfl
    | wildcard =>
      have hi : i = (segs.map Segment.spelling).length - 1 := beq_iff_eq.1 hs
      simp [Segment.spelling, Segment.regexText, Segment.names, hi]
      rfl
  · simp
    omega
  · simp

/-! ## Reading the regex text -/

/-- The shape of a whole-path regex: the literal text before the first group, the literal text
after each parameter's group, and whether the wildcard's group ends it. -/
structure PathLayout where
  lead : List Char
  literals : List (List Char)
  rest : Bool

/-- The layout of the regex of a template: each non-empty segment stands after a `/`, and the
literal texts between two groups are joined up. -/
def Segment.layout : List Segment → PathLayout
  | [] => ⟨[], [], false⟩
  | .text t :: segs =>
    if t = [] then layout segs else { layout segs with lead := '/' :: t ++ (layout segs).lead }
  | .param pre _ post _ :: segs =>
    ⟨'/' :: pre, (post ++ (layout segs).lead) :: (layout segs).literals, (layout segs).rest⟩
  | .wildcard :: _ => ⟨['/'], [], true⟩

theorem pathParts_cons (d : List Char) (ds : List (List Char)) (rest : Bool) :
    pathParts (d :: ds) rest = (segmentRun, d) :: pathParts ds rest := rfl

/-- The items of the regex a layout describes, its groups numbered from `i`. -/
def PathLayout.items (l : PathLayout) (i : Nat) : List Regex :=
  literal l.lead ++ groupsThen i (pathParts l.literals l.rest)

/-- A parameter's regex text after its `/` reads as the literal texts around its group. -/
theorem run_paramText (b : Branches) (g : Nat) (pre post rest : List Char) :
    ({ cur := b, groups := g } : Reader).run
        (('/' :: (quoteChars pre ++ ['(', '[', '^', '/', ']', '+', ')'] ++ quoteChars post)) ++ rest) =
      ({ cur := { b with
                    items := (literal ('/' :: pre) ++ .group (g + 1) segmentRun :: literal post).reverse ++
                      b.items
                    last := .atom }
         groups := g + 1 } : Reader).run rest := by
  have htext : ('/' :: (quoteChars pre ++ ['(', '[', '^', '/', ']', '+', ')'] ++ quoteChars post)) ++
      rest = quoteChars ('/' :: pre) ++
        ('(' :: '[' :: '^' :: '/' :: ']' :: '+' :: ')' :: (quoteChars post ++ rest)) := by
    simp [quoteChars, isMeta]
  rw [htext, Reader.run_quoteChars rfl, Reader.run_segmentGroup, Reader.run_quoteChars rfl]
  simp [literal]

/-- The wildcard's regex text after its `/` reads as the `/` and its group. -/
theorem run_wildcardText (b : Branches) (g : Nat) (rest : List Char) :
    ({ cur := b, groups := g } : Reader).run (('/' :: ['(', '.', '*', ')']) ++ rest) =
      ({ cur := { b with items := .group (g + 1) restRun :: .char '/' false :: b.items, last := .atom }
         groups := g + 1 } : Reader).run rest := by
  have htext : ('/' :: ['(', '.', '*', ')']) ++ rest =
      quoteChars ['/'] ++ ('(' :: '.' :: '*' :: ')' :: rest) := by
    simp [quoteChars, isMeta]
  rw [htext, Reader.run_quoteChars rfl, Reader.run_restGroup]
  simp [literal]

/-- Values for a layout's groups: `ps` for the parameters, one for each literal, non-empty and
without `/`, then `w` for the wildcard, without a line feed, when the layout ends with it. -/
structure PathLayout.Split (l : PathLayout) (vs ps : List (List Char)) (w : List Char) : Prop where
  values : vs = ps ++ if l.rest then [w] else []
  length : ps.length = l.literals.length
  params : ∀ v ∈ ps, v ≠ [] ∧ '/' ∉ v
  wild : l.rest = true → '\n' ∉ w

/-- The path a layout describes with the parameters' values `ps` and the wildcard's value `w`. -/
def PathLayout.path (l : PathLayout) (ps : List (List Char)) (w : List Char) : List Char :=
  (if l.lead = [] then ['/'] else l.lead) ++ interleave ps l.literals ++ if l.rest then w else []

/-- The regex of a layout; with no segment at all it is the lone `/`. -/
def PathLayout.pattern (l : PathLayout) : Pattern :=
  pathPattern (if l.lead = [] then ['/'] else l.lead) l.literals l.rest

/-- Reading the segments' regex texts, each after a `/`, adds the items of their layout, with a
group more for each parameter and the wildcard. -/
theorem run_regexTexts : ∀ (segs : List Segment) (items : List Regex) (last : Last) (g : Nat)
    (rest : List Char), Segment.Simple segs →
    ({ cur := { items, last }, groups := g } : Reader).run
        ((segs.filterMap Segment.regexText).flatMap ('/' :: ·) ++ rest) =
      ({ cur := { items := ((Segment.layout segs).items (g + 1)).reverse ++ items,
                  last := if (Segment.layout segs).lead = [] then last else .atom }
         groups := g + (pathParts (Segment.layout segs).literals (Segment.layout segs).rest).length } :
        Reader).run rest
  | [], items, last, g, rest, _ => by
    simp [Segment.layout, PathLayout.items, pathParts, groupsThen]
  | .text t :: segs, items, last, g, rest, ⟨_, hsegs⟩ => by
    by_cases ht : t = []
    · subst ht
      simpa [Segment.regexText, Segment.layout] using run_regexTexts segs items last g rest hsegs
    · have hquote : '/' :: quoteChars t = quoteChars ('/' :: t) := rfl
      simp only [List.filterMap_cons, Segment.regexText, if_neg ht, List.flatMap_cons, hquote,
        List.append_assoc]
      rw [Reader.run_quoteChars rfl]
      rw [run_regexTexts segs _ _ g rest hsegs]
      simp [Segment.layout, ht, PathLayout.items, literal]
  | .param pre name post marked :: segs, items, last, g, rest, ⟨_, hsegs⟩ => by
    simp only [List.filterMap_cons, Segment.regexText, List.flatMap_cons]
    rw [List.append_assoc ('/' :: _) _ rest, run_paramText, run_regexTexts segs _ _ (g + 1) rest hsegs]
    simp only [Segment.layout, PathLayout.items, pathParts_cons, groupsThen, literal, List.map_cons,
      List.map_append, List.cons_append, List.reverse_cons, List.reverse_append, List.append_assoc,
      List.length_cons, List.cons_ne_nil, if_false, ite_self]
    congr 2
    omega
  | .wildcard :: segs, items, last, g, rest, ⟨hs, _⟩ => by
    -- the wildcard ends the template
    obtain rfl : segs = [] := List.isEmpty_iff.1 hs
    rw [List.filterMap_cons, Segment.regexText, List.filterMap_nil, List.flatMap_singleton,
      run_wildcardText]
    simp [Segment.layout, PathLayout.items, pathParts, groupsThen, literal]

/-- Joining texts by `/` after a `/` puts a `/` before each. -/
theorem slash_cons_intercalate : ∀ (xs : List (List Char)), xs ≠ [] →
    '/' :: ['/'].intercalate xs = xs.flatMap ('/' :: ·)
  | [], h => absurd rfl h
  | [x], _ => by simp
  | x :: y :: ys, _ => by
    rw [List.intercalate_cons_cons, List.flatMap_cons, ← slash_cons_intercalate (y :: ys) (by simp)]
    simp

/-- The layout has no lead exactly when every segment is empty, and then nothing else. -/
theorem layout_lead_eq_nil : ∀ (segs : List Segment),
    (Segment.layout segs).lead = [] ↔ segs.filterMap Segment.regexText = []
  | [] => by simp [Segment.layout]
  | .text t :: segs => by
    by_cases ht : t = []
    · simpa [Segment.layout, Segment.regexText, ht] using layout_lead_eq_nil segs
    · simp [Segment.layout, Segment.regexText, ht]
  | .param .. :: _ => by simp [Segment.layout, Segment.regexText]
  | .wildcard :: _ => by simp [Segment.layout, Segment.regexText]

theorem layout_of_lead_eq_nil : ∀ {segs : List Segment}, (Segment.layout segs).lead = [] →
    (Segment.layout segs).literals = [] ∧ (Segment.layout segs).rest = false
  | [], _ => ⟨rfl, rfl⟩
  | .text t :: segs, h => by
    by_cases ht : t = []
    · simp only [Segment.layout, ht, if_true] at h ⊢
      exact layout_of_lead_eq_nil h
    · simp [Segment.layout, ht] at h
  | .param .. :: _, h => by simp [Segment.layout] at h
  | .wildcard :: _, h => by simp [Segment.layout] at h

theorem PathLayout.maxBackref_items (l : PathLayout) (i : Nat) : ∀ r ∈ l.items i, r.maxBackref = 0 := by
  intro r hr
  rcases List.mem_append.1 hr with hr | hr
  · obtain ⟨c, -, rfl⟩ := List.mem_map.1 hr
    rfl
  · refine maxBackref_groupsThen i _ (fun part hp => ?_) r hr
    rcases List.mem_append.1 hp with hp | hp
    · obtain ⟨d, -, rfl⟩ := List.mem_map.1 hp
      rfl
    · split at hp
      · rw [List.mem_singleton.1 hp]
        rfl
      · exact absurd hp List.not_mem_nil

/-- The regex text of a simple template reads as the regex of its layout. -/
theorem parse_simple {segs : List Segment} (h : Segment.Simple segs) :
    Pattern.parse ("^/" ++ "/".intercalate ((segs.filterMap Segment.regexText).map String.ofList) ++ "/?$") =
      .ok (Segment.layout segs).pattern := by
  have htext : ("^/" ++ "/".intercalate ((segs.filterMap Segment.regexText).map String.ofList) ++
      "/?$").toList =
        '^' :: (('/' :: ['/'].intercalate (segs.filterMap Segment.regexText)) ++ ['/', '?', '$']) := by
    simp [String.toList_intercalate, List.map_map, Function.comp_def]
  have h₁ : ∀ cs, ({} : Reader).step '^' cs =
      .ok ({ cur := { items := [.assert .startText], last := .fixed } }, cs) := fun cs => rfl
  have hback := PathLayout.maxBackref_items (Segment.layout segs) 1
  rw [Pattern.parse, htext, Reader.run_of_step (h₁ _) (Nat.le_refl _)]
  by_cases hb : segs.filterMap Segment.regexText = []
  · -- no segment has a text: the regex is `^//?$`
    have hlead := (layout_lead_eq_nil segs).2 hb
    obtain ⟨hlit, hrest⟩ := layout_of_lead_eq_nil hlead
    rw [hb, show ('/' :: ['/'].intercalate []) ++ ['/', '?', '$'] =
      quoteChars ['/'] ++ ['/', '?', '$'] from rfl, Reader.run_quoteChars rfl]
    dsimp only
    rw [Reader.run_pathEnd _ _ _ (by
      intro r hr
      simp only [literal, List.map_cons, List.map_nil, List.reverse_cons, List.reverse_nil, List.nil_append,
        List.cons_append, List.mem_cons, List.not_mem_nil, or_false] at hr
      rcases hr with rfl | rfl <;> rfl)]
    simp [PathLayout.pattern, pathPattern, hlead, hlit, hrest, pathParts, groupsThen, literal]
  · have hlead : (Segment.layout segs).lead ≠ [] := fun h' => hb ((layout_lead_eq_nil segs).1 h')
    rw [slash_cons_intercalate _ hb,
      show ({ cur := { items := [.assert .startText], last := .fixed } } : Reader) =
        { cur := { items := [.assert .startText], last := .fixed }, groups := 0 } from rfl,
      run_regexTexts segs _ _ 0 _ h, Reader.run_pathEnd _ _ _ (by
        intro r hr
        rcases List.mem_append.1 hr with hr | hr
        · exact hback r (List.mem_reverse.1 hr)
        · rw [List.mem_singleton.1 hr]
          rfl)]
    simp [PathLayout.pattern, pathPattern, PathLayout.items, hlead]

/-- A simple template builds: its regex is the one of its layout, and its names are its
parameters' names in order. -/
theorem ofTemplate_simple {segs : List Segment} (h : Segment.Simple segs) (hne : templateOf segs ≠ []) :
    ∃ source, PathRegex.ofTemplate (String.ofList (templateOf segs)) =
      .ok ⟨source, (Segment.layout segs).pattern, segs.flatMap Segment.names⟩ := by
  have hsegs : segs ≠ [] := by
    rintro rfl
    exact hne rfl
  have hempty : (String.ofList (templateOf segs)).isEmpty = false := by
    simpa [String.isEmpty_iff] using hne
  refine ⟨"^/" ++ "/".intercalate ((segs.filterMap Segment.regexText).map String.ofList) ++ "/?$", ?_⟩
  unfold PathRegex.ofTemplate
  simp only [hempty, String.toList_ofList, splitSlash_templateOf h hsegs, segmentsRegex_simple _ h hsegs,
    Bool.false_eq_true, if_false]
  simp only [bind, Except.bind]
  rw [parse_simple h]
  rfl

/-! ## The path of some values -/

theorem fill_eq_nil_iff : ∀ (segs : List Segment) (vs : List (List Char)),
    fill segs vs = [] ↔ (Segment.layout segs).lead = []
  | [], _ => by simp [fill, Segment.layout]
  | .text t :: segs, vs => by
    by_cases ht : t = []
    · simpa [fill, Segment.layout, ht] using fill_eq_nil_iff segs vs
    · simp [fill, Segment.layout, ht]
  | .param .. :: _, _ => by simp [fill, Segment.layout]
  | .wildcard :: _, _ => by simp [fill, Segment.layout]

/-- Values fitting the segments of a simple template split into the parameters' values and the
wildcard's; the non-empty segments, each after a `/`, spell the layout's lead and the values joined
by its literals. -/
theorem flatMap_fill : ∀ (segs : List Segment) (vs : List (List Char)), Segment.Simple segs →
    List.Forall₂ Segment.Fits (segs.filter Segment.captures) vs →
    ∃ ps w, (Segment.layout segs).Split vs ps w ∧
      (fill segs vs).flatMap ('/' :: ·) =
        (Segment.layout segs).lead ++ interleave ps (Segment.layout segs).literals ++
          (if (Segment.layout segs).rest then w else [])
  | [], vs, _, hvs => by
    obtain rfl : vs = [] := List.forall₂_nil_left_iff.1 hvs
    exact ⟨[], [], ⟨rfl, rfl, fun _ hv => absurd hv List.not_mem_nil, fun h => Bool.noConfusion h⟩,
      by simp [Segment.layout, fill, interleave]⟩
  | .text t :: segs, vs, ⟨_, hsegs⟩, hvs => by
    simp only [List.filter_cons, Segment.captures, Bool.false_eq_true, if_false] at hvs
    obtain ⟨ps, w, hsplit, hflat⟩ := flatMap_fill segs vs hsegs hvs
    by_cases ht : t = []
    · simp only [fill, Segment.layout, ht, if_true]
      exact ⟨ps, w, hsplit, hflat⟩
    · have hlay : Segment.layout (.text t :: segs) =
          { Segment.layout segs with lead := '/' :: t ++ (Segment.layout segs).lead } := by
        simp [Segment.layout, ht]
      rw [hlay]
      exact ⟨ps, w, ⟨hsplit.values, hsplit.length, hsplit.params, hsplit.wild⟩, by simp [fill, ht, hflat]⟩
  | .param pre name post marked :: segs, vs, ⟨_, hsegs⟩, hvs => by
    -- the first value is the parameter's
    simp only [List.filter_cons, Segment.captures, if_true] at hvs
    obtain ⟨v, vs', hv, hvs', rfl⟩ := List.forall₂_cons_left_iff.1 hvs
    obtain ⟨ps, w, hsplit, hflat⟩ := flatMap_fill segs vs' hsegs hvs'
    refine ⟨v :: ps, w, ⟨by rw [hsplit.values]; rfl, by simp [Segment.layout, hsplit.length],
      fun u hu => ?_, hsplit.wild⟩, ?_⟩
    · rcases List.mem_cons.1 hu with rfl | hu
      · exact hv
      · exact hsplit.params u hu
    · simp [fill, Segment.layout, interleave, hflat]
      rfl
  | .wildcard :: segs, vs, ⟨hs, _⟩, hvs => by
    -- the wildcard ends the template and takes the only value
    obtain rfl : segs = [] := List.isEmpty_iff.1 hs
    simp only [List.filter_cons, Segment.captures, if_true, List.filter_nil] at hvs
    obtain ⟨w, vs', hw, hnil, rfl⟩ := List.forall₂_cons_left_iff.1 hvs
    obtain rfl : vs' = [] := List.forall₂_nil_left_iff.1 hnil
    exact ⟨[], w, ⟨rfl, rfl, fun _ hu => absurd hu List.not_mem_nil, fun _ => hw⟩,
      by simp [fill, Segment.layout, interleave]⟩

/-- The path of values fitting a simple template is the path of its layout. -/
theorem renderPath_eq {segs : List Segment} {vs : List (List Char)} (h : Segment.Simple segs)
    (hvs : List.Forall₂ Segment.Fits (segs.filter Segment.captures) vs) :
    ∃ ps w, (Segment.layout segs).Split vs ps w ∧ renderPath segs vs = (Segment.layout segs).path ps w := by
  obtain ⟨ps, w, hsplit, hflat⟩ := flatMap_fill segs vs h hvs
  refine ⟨ps, w, hsplit, ?_⟩
  by_cases hlead : (Segment.layout segs).lead = []
  · -- no segment is left: the path is the lone `/`
    obtain ⟨hlit, hrest⟩ := layout_of_lead_eq_nil hlead
    have hps : ps = [] := List.eq_nil_of_length_eq_zero (by rw [hsplit.length, hlit]; rfl)
    simp [renderPath, (fill_eq_nil_iff segs vs).2 hlead, PathLayout.path, hlead, hlit, hrest, hps,
      interleave]
  · have hfill : fill segs vs ≠ [] := fun h' => hlead ((fill_eq_nil_iff segs vs).1 h')
    rw [renderPath, slash_cons_intercalate _ hfill, hflat, PathLayout.path, if_neg hlead]

/-! ## The regex captures the values -/

theorem slash_mem_lead : ∀ (segs : List Segment), (Segment.layout segs).lead ≠ [] →
    '/' ∈ (Segment.layout segs).lead
  | [], h => absurd rfl h
  | .text t :: segs, h => by
    by_cases ht : t = []
    · simp only [Segment.layout, ht, if_true] at h ⊢
      exact slash_mem_lead segs h
    · simp [Segment.layout, ht]
  | .param .. :: _, _ => by simp [Segment.layout]
  | .wildcard :: _, _ => by simp [Segment.layout]

/-- A layout with a group after its lead has a `/` in its lead. -/
theorem slash_mem_lead_of_groups {segs : List Segment}
    (h : (Segment.layout segs).literals ≠ [] ∨ (Segment.layout segs).rest = true) :
    '/' ∈ (Segment.layout segs).lead := by
  refine slash_mem_lead segs fun hlead => ?_
  obtain ⟨hlit, hrest⟩ := layout_of_lead_eq_nil hlead
  rcases h with h | h
  · exact h hlit
  · rw [hrest] at h
    exact Bool.noConfusion h

theorem mem_dropLast_cons {a d : List Char} {l : List (List Char)} (h : d ∈ (a :: l).dropLast) :
    (d = a ∧ l ≠ []) ∨ d ∈ l.dropLast := by
  cases l with
  | nil => exact absurd h (by simp)
  | cons b l =>
    rw [List.dropLast_cons_cons] at h
    rcases List.mem_cons.1 h with rfl | h
    · exact .inl ⟨rfl, List.cons_ne_nil b l⟩
    · exact .inr h

/-- Every literal of a layout holds a `/`, save the last when no wildcard follows it. -/
def PathLayout.Separated (l : PathLayout) : Prop :=
  ∀ d ∈ (if l.rest then l.literals else l.literals.dropLast), '/' ∈ d

/-- The literal after a parameter runs into the `/` of the next non-empty segment, which is there
unless nothing follows. -/
theorem layout_separated : ∀ (segs : List Segment), (Segment.layout segs).Separated
  | [] => fun _ h => by simp [Segment.layout] at h
  | .text t :: segs => by
    by_cases ht : t = []
    · simpa [Segment.layout, ht] using layout_separated segs
    · simpa [PathLayout.Separated, Segment.layout, ht] using layout_separated segs
  | .param pre name post marked :: segs => by
    have ih := layout_separated segs
    show ∀ d ∈ (if (Segment.layout segs).rest then
        (post ++ (Segment.layout segs).lead) :: (Segment.layout segs).literals
      else ((post ++ (Segment.layout segs).lead) :: (Segment.layout segs).literals).dropLast), '/' ∈ d
    intro d hd
    by_cases hrest : (Segment.layout segs).rest = true
    · rw [if_pos hrest] at hd
      rcases List.mem_cons.1 hd with rfl | hd
      · exact List.mem_append_right _ (slash_mem_lead_of_groups (.inr hrest))
      · exact ih d (by rw [if_pos hrest]; exact hd)
    · rw [if_neg hrest] at hd
      rcases mem_dropLast_cons hd with ⟨rfl, hne⟩ | hd
      · exact List.mem_append_right _ (slash_mem_lead_of_groups (.inl hne))
      · exact ih d (by rw [if_neg hrest]; exact hd)
  | .wildcard :: _ => fun _ h => by simp [Segment.layout] at h

theorem layout_rest_of_not_mem : ∀ {segs : List Segment}, Segment.wildcard ∉ segs →
    (Segment.layout segs).rest = false
  | [], _ => rfl
  | .text t :: segs, h => by
    have ih := layout_rest_of_not_mem fun hw => h (List.mem_cons_of_mem _ hw)
    by_cases ht : t = [] <;> simp [Segment.layout, ht, ih]
  | .param .. :: segs, h => @layout_rest_of_not_mem segs fun hw => h (List.mem_cons_of_mem _ hw)
  | .wildcard :: _, h => absurd List.mem_cons_self h

/-- The regex of a layout captures the values its path was made of. -/
theorem PathLayout.captures_path {l : PathLayout} (hsep : l.Separated) {vs ps : List (List Char)}
    {w : List Char} (hs : l.Split vs ps w) :
    l.pattern.captures (String.ofList (l.path ps w)) = some (vs.map fun v => some (String.ofList v)) := by
  rw [hs.values, PathLayout.pattern, PathLayout.path]
  cases hr : l.rest
  · -- the last group is a parameter's, followed by the last literal
    have hsep' : ∀ d ∈ l.literals.dropLast, '/' ∈ d := by simpa [PathLayout.Separated, hr] using hsep
    simpa using pathPattern_captures_params hsep' hs.length hs.params (.inl rfl)
  · -- the wildcard's group takes the rest of the path
    have hsep' : ∀ d ∈ l.literals, '/' ∈ d := by simpa [PathLayout.Separated, hr] using hsep
    simpa using pathPattern_captures_rest hsep' hs.length hs.params (hs.wild hr)

/-- Without the wildcard, one more `/` at the end of the path leaves the captures as they are. -/
theorem PathLayout.captures_path_slash {l : PathLayout} (hsep : l.Separated) {vs ps : List (List Char)}
    {w : List Char} (hs : l.Split vs ps w) (hr : l.rest = false) :
    l.pattern.captures (String.ofList (l.path ps w ++ ['/'])) =
      some (vs.map fun v => some (String.ofList v)) := by
  have hsep' : ∀ d ∈ l.literals.dropLast, '/' ∈ d := by simpa [PathLayout.Separated, hr] using hsep
  rw [hs.values, PathLayout.pattern, PathLayout.path, hr]
  simpa using pathPattern_captures_params hsep' hs.length hs.params (.inr rfl)

/-- A simple template builds its whole-path regex; the names are its parameters' names in order,
each found at its last position; and the regex captures exactly the values a path was built
from, in order, whether or not one more `/` ends the path when there is no wildcard. -/
theorem simple_template_captures (segs : List Segment) (h : Segment.Simple segs)
    (hne : templateOf segs ≠ []) :
    ∃ pr, PathRegex.ofTemplate (String.ofList (templateOf segs)) = .ok pr ∧
      pr.names = segs.flatMap Segment.names ∧
      (∀ name i, ({ names := pr.names } : ParamIndex).position? name = some i ↔
        (segs.flatMap Segment.names)[i]? = some name ∧
          ∀ j, i < j → (segs.flatMap Segment.names)[j]? ≠ some name) ∧
      ∀ vs, List.Forall₂ Segment.Fits (segs.filter Segment.captures) vs →
        pr.regex.captures (String.ofList (renderPath segs vs)) =
            some (vs.map fun v => some (String.ofList v)) ∧
          (Segment.wildcard ∉ segs →
            pr.regex.captures (String.ofList (renderPath segs vs ++ ['/'])) =
              some (vs.map fun v => some (String.ofList v))) := by
  obtain ⟨source, hpr⟩ := ofTemplate_simple h hne
  refine ⟨_, hpr, rfl, fun name i => ParamIndex.position?_eq_some_iff, fun vs hvs => ?_⟩
  obtain ⟨ps, w, hsplit, hrender⟩ := renderPath_eq h hvs
  rw [hrender]
  exact ⟨PathLayout.captures_path (layout_separated segs) hsplit,
    fun hw => PathLayout.captures_path_slash (layout_separated segs) hsplit (layout_rest_of_not_mem hw)⟩

theorem items_id_template_captures :
    ∃ pr, PathRegex.ofTemplate "/items/:id" = .ok pr ∧
      pr.regex.captures "/items/42" = some [some "42"] ∧
      pr.regex.captures "/items/42/" = some [some "42"] := by
  obtain ⟨pr, hpr, -, -, hcap⟩ := simple_template_captures
    [.text [], .text ['i', 't', 'e', 'm', 's'], .param [] ['i', 'd'] [] false]
    (by simp [Segment.Simple, Segment.SimpleAt, Segment.IsPlain, isParamNameChar])
    (by simp [templateOf, Segment.spelling])
  obtain ⟨hpath, hslash⟩ := hcap [['4', '2']] (by simp [List.filter, Segment.captures, Segment.Fits])
  exact ⟨pr, hpr, hpath, hslash (by simp)⟩

/-- The wildcard must be the last segment of the split template, empty ones included: followed by
a final `/` it is refused, though no other segment follows it. -/
theorem wildcard_before_final_slash_refused :
    PathRegex.ofTemplate "/files/*/" = .error (.wildcardNotLast "/files/*/") := by
  rfl

end Routing
