import Mathlib
import Nipoto.Retrieval.Dropped
import Nipoto.Retrieval.Outline

/-! # Inline tags in markdown

One tag sends a whole markdown body through the HTML path of `clean`, where the
line breaks of the text become spaces and only `br` ends a line.
-/

namespace Nipoto.Chunking

open Text Text.Regex Clean

inductive InlineName where
  | b | strong | em | a | span | br
  deriving DecidableEq

def InlineName.word : InlineName → String
  | b => "b"
  | strong => "strong"
  | em => "em"
  | a => "a"
  | span => "span"
  | br => "br"

inductive TagKind where
  | opening | closing | selfClosing
  deriving DecidableEq

/-- A tag with its name as it is spelled. `attributes` is what stands between the name
    and the end of the tag, line breaks included. -/
structure InlineTag where
  kind : TagKind
  name : InlineName
  spelled : Str
  attributes : Str
  named : spelled.map Char.toLower = name.word.toList

namespace InlineTag

def source (t : InlineTag) : Str :=
  match t.kind with
  | .opening => '<' :: t.spelled ++ t.attributes ++ ['>']
  | .closing => '<' :: '/' :: t.spelled ++ t.attributes ++ ['>']
  | .selfClosing => '<' :: t.spelled ++ t.attributes ++ ['/', '>']

/-- A self-closing tag is reported as both. -/
def events (t : InlineTag) : List Event :=
  match t.kind with
  | .opening => [.starttag t.name.word]
  | .closing => [.endtag t.name.word]
  | .selfClosing => [.starttag t.name.word, .endtag t.name.word]

end InlineTag

/-- `<` begins a tag, a comment or a declaration before these. -/
def opensMarkup (c : Char) : Bool := c.isAlpha || c == '/' || c == '!' || c == '?'

def IsText (run : Str) : Prop := ∀ c, opensMarkup c = true → ¬ ['<', c] <:+: run

/-- A text run, and then tags, each with the text run after it. A run may be empty. -/
structure InlineBody where
  first : Str
  rest : List (InlineTag × Str)
  firstText : IsText first
  restText : ∀ part ∈ rest, IsText part.2

namespace InlineBody

def source (body : InlineBody) : Str := body.first ++ body.rest.flatMap fun part => part.1.source ++ part.2

/-- What the parser reports of a text run, its character references resolved. -/
def runData (unescape : Str → Str) (run : Str) : List Str := if run = [] then [] else [unescape run]

def events (unescape : Str → Str) (body : InlineBody) : List Event :=
  (runData unescape body.first).map .data ++
    body.rest.flatMap fun part => part.1.events ++ (runData unescape part.2).map .data

/-- The text with every tag as one `<`, so that its lines are those of the body and a
    line with a tag on it shows one. -/
def marked (body : InlineBody) : Str := body.first ++ body.rest.flatMap fun part => '<' :: part.2

/-- The texts of the h2 and h3 lines that have no tag and no character reference. -/
def headingLines (body : InlineBody) : List Str :=
  (lines body.marked).filterMap fun line => if '<' ∈ line ∨ '&' ∈ line then none else headingText line

/-- A text run at the end of a line: white space is folded, and it is not doubled by a
    run of white space alone. -/
def addRun (line run : Str) : Str :=
  let text := sub Extractor.whitespaceRun (fun _ => [' ']) run
  if strip text ≠ [] then line ++ text
  else if text ≠ [] ∧ line ≠ [] ∧ Extractor.endsWithBlank line = false then line ++ [' ']
  else line

def linesFrom (unescape : Str → Str) (line : Str) : List (InlineTag × Str) → List Str
  | [] => [line]
  | (tag, run) :: rest =>
      if tag.name = .br then line :: linesFrom unescape ((runData unescape run).foldl addRun []) rest
      else linesFrom unescape ((runData unescape run).foldl addRun line) rest

/-- The parts of a body between its br tags, each folded onto one line. -/
def brLines (unescape : Str → Str) (body : InlineBody) : List Str :=
  linesFrom unescape ((runData unescape body.first).foldl addRun []) body.rest

end InlineBody

theorem occurs_of_matchAt {pattern : Pattern} {before a rest : Str}
    (here : (pattern.matchAt (a.reverse ++ before) rest).isSome = true) :
    occurs pattern before (a ++ rest) = true := by
  induction a generalizing before with
  | nil => cases rest <;> simp_all [occurs]
  | cons c a ih =>
      have later := @ih (c :: before) (by simpa using here)
      simp [occurs, later]

theorem first_closing (middle b : Str) :
    ∃ w r, middle ++ '>' :: b = w ++ '>' :: r ∧ ∀ x ∈ w, (x != '>') = true := by
  induction middle with
  | nil => exact ⟨[], b, rfl, by simp⟩
  | cons c middle ih =>
      by_cases closing : c = '>'
      · exact ⟨[], middle ++ '>' :: b, by rw [closing]; rfl, by simp⟩
      · obtain ⟨w, r, split, inside⟩ := ih
        exact ⟨c :: w, r, by rw [List.cons_append, split]; rfl, by simpa [closing] using inside⟩

theorem looksLikeHtml_tag {a middle b : Str} {c : Char} (opens : (c.isAlpha || c == '/' || c == '!') = true) :
    looksLikeHtml (a ++ '<' :: c :: (middle ++ '>' :: b)) = true := by
  apply occurs_of_matchAt
  rw [Option.isSome_iff_ne_none]
  intro none
  obtain ⟨w, r, split, inside⟩ := first_closing middle b
  apply Pattern.matchAt_eq_none.mp none
  rw [split]
  exact ⟨_, ⟨_, _, rfl, by decide, rfl⟩, _, ⟨_, _, rfl, opens, rfl⟩, _,
    matches_many.mpr ⟨w, '>' :: r, rfl, Nat.zero_le _, inside, rfl⟩, _, ⟨_, _, rfl, by decide, rfl⟩, rfl⟩

theorem htmlTagHint_none {run : Str} (text : IsText run) (before : Str) :
    htmlTagHint.matchAt before run = none := by
  rw [Pattern.matchAt_eq_none]
  intro d possible
  obtain ⟨_, ⟨x, r, split, isOpen, rfl⟩, _, ⟨c, r', split', opens, rfl⟩, -⟩ := possible
  obtain rfl : x = '<' := by simpa using isOpen
  simp only at split split'
  apply text c
  · have marks : (c.isAlpha || c == '/' || c == '!') = true := opens
    rw [opensMarkup, marks, Bool.true_or]
  · exact ⟨[], r', by rw [split, split']; rfl⟩

theorem occurs_text {run : Str} (text : IsText run) (before : Str) : occurs htmlTagHint before run = false := by
  induction run generalizing before with
  | nil => simp [occurs, htmlTagHint_none text]
  | cons c run ih =>
      have later : IsText run := fun d opens inside => text d opens (inside.trans (List.suffix_cons c run).isInfix)
      simp [occurs, htmlTagHint_none text, ih later]

theorem InlineTag.source_opens (t : InlineTag) : ∃ c middle, t.source = '<' :: c :: (middle ++ ['>']) ∧
    (c.isAlpha || c == '/' || c == '!') = true := by
  obtain ⟨c, more, spelled, letter⟩ : ∃ c more, t.spelled = c :: more ∧ c.isAlpha = true := by
    have named := t.named
    cases spelled : t.spelled with
    | nil => rw [spelled] at named; cases name : t.name <;> simp [name, InlineName.word] at named
    | cons c more =>
        refine ⟨c, more, rfl, ?_⟩
        rw [spelled, List.map_cons] at named
        rw [← Char.isAlpha_toLower_eq_isAlpha]
        cases name : t.name <;> rw [name] at named <;> rw [(List.cons.inj named).1] <;> decide
  cases kind : t.kind with
  | opening => exact ⟨c, more ++ t.attributes, by simp [source, kind, spelled], by simp [letter]⟩
  | closing => exact ⟨'/', t.spelled ++ t.attributes, by simp [source, kind], by simp⟩
  | selfClosing => exact ⟨c, more ++ t.attributes ++ ['/'], by simp [source, kind, spelled], by simp [letter]⟩

theorem InlineBody.looksLikeHtml_iff (body : InlineBody) : looksLikeHtml body.source = true ↔ body.rest ≠ [] := by
  cases rest : body.rest with
  | nil => simpa [source, rest, looksLikeHtml] using occurs_text body.firstText []
  | cons part more =>
      obtain ⟨c, middle, split, opens⟩ := part.1.source_opens
      simpa [source, rest, split] using @looksLikeHtml_tag body.first middle _ c opens

theorem InlineBody.addRun_single {line : Str} (single : '\n' ∉ line) (run : Str) : '\n' ∉ addRun line run := by
  simp only [addRun]
  split
  · simp [single, fold_single]
  · split
    · simp [single]
    · exact single

theorem InlineBody.linesFrom_single (unescape : Str → Str) (rest : List (InlineTag × Str)) {line : Str}
    (single : '\n' ∉ line) : ∀ l ∈ linesFrom unescape line rest, '\n' ∉ l := by
  have runs : ∀ {line : Str} (run : Str), '\n' ∉ line → '\n' ∉ (runData unescape run).foldl addRun line := by
    intro line run single
    simp only [runData]
    split
    · exact single
    · exact addRun_single single _
  induction rest generalizing line with
  | nil => simpa [linesFrom] using single
  | cons part rest ih =>
      rw [linesFrom]
      split
      · intro l member
        cases member with
        | head => exact single
        | tail _ later => exact ih (runs part.2 (by simp)) l later
      · exact ih (runs part.2 single)

theorem InlineBody.brLines_single (unescape : Str → Str) (body : InlineBody) :
    ∀ l ∈ body.brLines unescape, '\n' ∉ l := by
  apply linesFrom_single
  simp only [runData]
  split
  · simp
  · exact addRun_single (by simp) _

open InlineBody (addRun linesFrom runData)

/-- The lines that are written and the one that is being written, up to the white space
    that is not written at the start of the text. -/
structure Writes (x : Extractor) (before : List Str) (line : Str) : Prop where
  kept : x.skipDepth = 0
  single : '\n' ∉ line
  written : ∃ above lead shown, x.parts.flatten = above ++ shown ∧ line = lead ++ shown ∧ Blank lead ∧
    ∀ t, content (above ++ t) = before ++ content t
  start : line = [] → ∀ part ∈ x.parts.getLast?, Extractor.endsWithBlank part = true
  inside : line ≠ [] → ∃ part ∈ x.parts.getLast?, Extractor.endsWithBlank part = Extractor.endsWithBlank line

theorem writes_nothing : Writes {} [] [] where
  kept := rfl
  single := by simp
  written := ⟨[], [], [], rfl, rfl, by simp [Blank], fun _ => rfl⟩
  start := by simp
  inside := by simp

namespace Writes

variable {x : Extractor} {before : List Str} {line : Str}

/-- What is written in the end has these lines. -/
theorem content_parts (writes : Writes x before line) : content x.parts.flatten = before ++ content line := by
  obtain ⟨above, lead, shown, parts, split, blank, lines⟩ := writes.written
  have tail : content line = content shown := by
    rw [split, ← content_strip, strip_blank_append blank, content_strip]
  rw [parts, lines, tail]

theorem begun (writes : Writes x before line) (some : line ≠ []) : x.parts ≠ [] := by
  obtain ⟨part, last, -⟩ := writes.inside some
  rintro none
  simp [none] at last

theorem endsWithBlank_append (line : Str) {text : Str} (some : text ≠ []) :
    Extractor.endsWithBlank (line ++ text) = Extractor.endsWithBlank text := by
  rw [Extractor.endsWithBlank, List.getLast?_append_of_ne_nil _ some, Extractor.endsWithBlank]

/-- More text at the end of the line. -/
theorem emit (writes : Writes x before line) {text : Str} (filled : text ≠ []) (single : '\n' ∉ text) :
    Writes (x.emit text) before (line ++ text) where
  kept := writes.kept
  single := by simp [writes.single, single]
  written := by
    obtain ⟨above, lead, shown, parts, split, blank, lines⟩ := writes.written
    exact ⟨above, lead, shown ++ text, by simp [Extractor.emit, parts], by simp [split], blank, lines⟩
  start := by simp [filled]
  inside := fun _ => ⟨text, by simp [Extractor.emit], (endsWithBlank_append line filled).symm⟩

theorem newline (writes : Writes x before line) (count : Nat) (positive : 0 < count) :
    Writes (x.newline count) (before ++ content line) [] where
  kept := writes.kept
  single := by simp
  written := by
    refine ⟨(x.newline count).parts.flatten, [], [], by simp, rfl, by simp [Blank], ?_⟩
    intro t
    have some : List.replicate count '\n' ≠ [] := by simp; omega
    have split := content_breaks (fun c member => List.eq_of_mem_replicate member) some x.parts.flatten t
    rw [← writes.content_parts, ← split]
    simp [Extractor.newline, Extractor.emit]
  start := by
    intro _ part last
    obtain rfl : List.replicate count '\n' = part := by simpa [Extractor.newline, Extractor.emit] using last
    obtain ⟨n, rfl⟩ := Nat.exists_eq_succ_of_ne_zero (by omega : count ≠ 0)
    simp [Extractor.endsWithBlank, List.getLast?_replicate]
  inside := by simp

/-- White space in front of the line may be left out. -/
theorem indent (writes : Writes x before line) (some : line ≠ []) {gap : Str} (blank : Blank gap)
    (single : '\n' ∉ gap) : Writes x before (gap ++ line) where
  kept := writes.kept
  single := by simp [writes.single, single]
  written := by
    obtain ⟨above, lead, shown, parts, split, blankLead, lines⟩ := writes.written
    refine ⟨above, gap ++ lead, shown, parts, by simp [split], ?_, lines⟩
    intro c member
    cases List.mem_append.mp member with
    | inl inGap => exact blank c inGap
    | inr inLead => exact blankLead c inLead
  start := by simp [some]
  inside := fun _ => (endsWithBlank_append gap some).symm ▸ writes.inside some

/-- White space alone is not doubled. -/
theorem space (writes : Writes x before line) (text : Str) :
    Writes (if text ≠ [] ∧ x.parts.getLast?.any (fun part => !Extractor.endsWithBlank part) then x.emit [' '] else x)
      before (if text ≠ [] ∧ line ≠ [] ∧ Extractor.endsWithBlank line = false then line ++ [' '] else line) := by
  by_cases some : line = []
  · have quiet : x.parts.getLast?.any (fun part => !Extractor.endsWithBlank part) = false := by
      rw [Option.any_eq_false]
      intro part last
      simp [writes.start some part last]
    rw [if_neg (by simp [quiet]), if_neg (by simp [some])]
    exact writes
  · obtain ⟨part, last, same⟩ := writes.inside some
    have agree : x.parts.getLast?.any (fun part => !Extractor.endsWithBlank part) =
        !Extractor.endsWithBlank line := by
      rw [Option.mem_def.mp last, Option.any_some, same]
    by_cases gap : text ≠ [] ∧ Extractor.endsWithBlank line = false
    · rw [agree, if_pos (by simp [gap]), if_pos ⟨gap.1, some, gap.2⟩]
      exact writes.emit (by simp) (by decide)
    · rw [agree, if_neg (by simpa using gap), if_neg (fun all => gap ⟨all.1, all.2.2⟩)]
      exact writes

/-- At the start of the text the white space in front is left out. -/
theorem solid (writes : Writes x before line) {text : Str} (some : strip text ≠ []) (single : '\n' ∉ text) :
    Writes (x.emit (if x.parts ≠ [] then text else lstrip text)) before (line ++ text) := by
  by_cases begun : x.parts = []
  · obtain rfl : line = [] := by
      by_contra filled
      exact writes.begun filled begun
    have kept : lstrip text ≠ [] := fun gone => some (strip_eq_nil.mpr (lstrip_eq_nil.mp gone))
    have later := writes.emit kept fun member => single ((lstrip_suffix text).subset member)
    have whole : text.takeWhile isSpace ++ lstrip text = text := List.takeWhile_append_dropWhile
    have gap : Blank (text.takeWhile isSpace) := fun c member => List.mem_takeWhile_imp member
    have indented := later.indent kept gap fun member => single ((List.takeWhile_prefix isSpace).subset member)
    rw [List.nil_append, whole] at indented
    simpa [begun] using indented
  · have filled : text ≠ [] := by
      rintro rfl
      exact some rfl
    rw [if_pos begun]
    exact writes.emit filled single

theorem data (writes : Writes x before line) (run : Str) :
    Writes (x.handle (.data run)) before (addRun line run) := by
  have shown : ¬ x.skipDepth ≠ 0 := by simp [writes.kept]
  simp only [Extractor.handle, Extractor.handleData, addRun, if_neg shown]
  have single := fold_single run
  generalize sub Extractor.whitespaceRun (fun _ => [' ']) run = text at single ⊢
  by_cases some : strip text ≠ []
  · rw [if_pos some, if_pos some]
    exact writes.solid some single
  · rw [if_neg some, if_neg some]
    exact writes.space text

theorem runs (writes : Writes x before line) (unescape : Str → Str) (run : Str) :
    Writes (x.feed ((runData unescape run).map .data)) before ((runData unescape run).foldl addRun line) := by
  simp only [runData]
  split
  · exact writes
  · exact writes.data (unescape run)

end Writes

/-- Only `br` writes anything. -/
theorem handle_inline {name : InlineName} (other : name ≠ .br) {x : Extractor} (kept : x.skipDepth = 0) :
    x.handle (.starttag name.word) = x ∧ x.handle (.endtag name.word) = x := by
  have known : isDropped name.word = false ∧ name.word ∉ blockTags := by
    cases name <;> first | exact absurd rfl other | decide
  exact Extractor.handle_unlisted known.1 known.2 kept

theorem feed_inline {tag : InlineTag} (other : tag.name ≠ .br) {x : Extractor} (kept : x.skipDepth = 0) :
    x.feed tag.events = x := by
  obtain ⟨opened, ended⟩ := handle_inline other kept
  cases kind : tag.kind <;>
    simp [InlineTag.events, kind, Extractor.feed, opened, ended]

theorem handle_br {x : Extractor} (kept : x.skipDepth = 0) :
    x.handle (.starttag "br") = x.newline 1 ∧ x.handle (.endtag "br") = x.newline 2 := by
  have known : isDropped "br" = false ∧ headings.lookup "br" = none ∧ "br" ∈ blockTags := by decide
  constructor
  · simp [Extractor.handle, Extractor.handleStarttag, known, kept]
  · simp [Extractor.handle, Extractor.handleEndtag, known, kept]

/-- A `br` ends the line, however it is written. -/
theorem feed_br {tag : InlineTag} (isBr : tag.name = .br) {x : Extractor} {before : List Str} {line : Str}
    (writes : Writes x before line) : Writes (x.feed tag.events) (before ++ content line) [] := by
  obtain ⟨opened, ended⟩ := handle_br writes.kept
  have word : tag.name.word = "br" := by rw [isBr]; rfl
  cases kind : tag.kind with
  | opening =>
      simp only [InlineTag.events, kind, word, Extractor.feed, List.foldl_cons, List.foldl_nil, opened]
      exact writes.newline 1 (by decide)
  | closing =>
      simp only [InlineTag.events, kind, word, Extractor.feed, List.foldl_cons, List.foldl_nil, ended]
      exact writes.newline 2 (by decide)
  | selfClosing =>
      have first := writes.newline 1 (by decide)
      have both := first.newline 2 (by decide)
      rw [content_nil, List.append_nil, ← (handle_br first.kept).2, ← opened] at both
      simpa [InlineTag.events, kind, word, Extractor.feed] using both

theorem feed_rest (unescape : Str → Str) {rest : List (InlineTag × Str)} {x : Extractor} {before : List Str}
    {line : Str} (writes : Writes x before line) :
    content (x.feed (rest.flatMap fun part =>
        part.1.events ++ (runData unescape part.2).map .data)).parts.flatten =
      before ++ (linesFrom unescape line rest).flatMap content := by
  induction rest generalizing x before line with
  | nil => simpa [Extractor.feed, linesFrom] using writes.content_parts
  | cons part rest ih =>
      obtain ⟨tag, run⟩ := part
      rw [List.flatMap_cons, List.append_assoc, Extractor.feed_append, Extractor.feed_append, linesFrom]
      by_cases isBr : tag.name = .br
      · rw [ih ((feed_br isBr writes).runs unescape run), if_pos isBr, List.flatMap_cons, List.append_assoc]
      · rw [feed_inline isBr writes.kept, ih (writes.runs unescape run), if_neg isBr]

/-- The HTML path writes the lines between the br tags. -/
theorem content_inline (unescape : Str → Str) (body : InlineBody) :
    content (htmlToText (body.events unescape)) = (body.brLines unescape).flatMap content := by
  rw [htmlToText, content_tidy, InlineBody.events, Extractor.feed_append,
    feed_rest unescape (writes_nothing.runs unescape body.first), List.nil_append]
  rfl

theorem headingLines_sublist (ls : List Str) :
    (ls.filterMap fun line => if '<' ∈ line ∨ '&' ∈ line then none else headingText line).Sublist
      (ls.filterMap headingText) := by
  have filtered : (ls.filterMap fun line => if '<' ∈ line ∨ '&' ∈ line then none else headingText line) =
      (ls.filter fun line => ¬ ('<' ∈ line ∨ '&' ∈ line)).filterMap headingText := by
    rw [List.filterMap_filter]
    apply List.filterMap_congr
    intro line _
    by_cases marked : '<' ∈ line ∨ '&' ∈ line <;> simp [marked]
  rw [filtered]
  exact List.filter_sublist.filterMap headingText

theorem headings_of_single {ls : List Str} (single : ∀ l ∈ ls, '\n' ∉ l) :
    (ls.flatMap content).filterMap headingText = ls.filterMap headingText := by
  induction ls with
  | nil => rfl
  | cons l ls ih =>
      have tail := ih fun m member => single m (List.mem_cons_of_mem l member)
      rw [List.flatMap_cons, List.filterMap_append, content_headings, lines_whole (single l List.mem_cons_self), tail, ← List.filterMap_append]
      rfl

/-- The heading lines of a markdown body with inline tags are section headings, in
    order, just if there is no tag or each heading line is matched, in order, by a
    part between the br tags that reads as that heading once it is one line. -/
theorem headings_survive_inline_iff (unescape : Str → Str) (parse : Str → List Event) (body : InlineBody)
    (parses : parse body.source = body.events unescape) :
    body.headingLines.Sublist ((splitSections (clean parse body.source)).filterMap Section.heading) ↔
      body.rest = [] ∨
        List.SublistForall₂ (fun heading line => headingText line = some heading) body.headingLines
          (body.brLines unescape) := by
  by_cases plain : body.rest = []
  · have untagged : looksLikeHtml body.source = false := by
      rw [Bool.eq_false_iff, ne_eq, body.looksLikeHtml_iff]
      simp [plain]
    have same : body.marked = body.source := by simp [InlineBody.marked, InlineBody.source, plain]
    rw [splitSections_headings, content_clean_plain untagged, content_headings, InlineBody.headingLines, same]
    exact iff_of_true (headingLines_sublist (lines body.source)) (.inl plain)
  · have tagged : looksLikeHtml body.source = true := body.looksLikeHtml_iff.mpr plain
    have some : body.source ≠ [] := by
      intro none
      rw [none] at tagged
      exact absurd tagged (by decide)
    have cleaned : clean parse body.source = htmlToText (body.events unescape) := by
      rw [clean, if_neg some, if_pos tagged, parses]
    rw [cleaned, splitSections_headings, content_inline, headings_of_single (body.brLines_single unescape),
      sublist_filterMap]
    simp [plain]

theorem isText_of_no_angle {run : Str} (none : '<' ∉ run) : IsText run :=
  fun _ _ inside => none (inside.subset List.mem_cons_self)

def boldTag (kind : TagKind) : InlineTag where
  kind
  name := .b
  spelled := ['b']
  attributes := []
  named := by decide

/-- A heading over a paragraph with a bold word. -/
def boldBody : InlineBody where
  first := "## A\n\nsome ".toList
  rest := [(boldTag .opening, "bold".toList), (boldTag .closing, " text".toList)]
  firstText := isText_of_no_angle (by decide)
  restText := by
    have none : ∀ part ∈ [(boldTag .opening, "bold".toList), (boldTag .closing, " text".toList)], '<' ∉ part.2 := by
      decide
    exact fun part member => isText_of_no_angle (none part member)

theorem headings_survive_inline_bold :
    boldBody.headingLines.Sublist
        ((splitSections (clean (fun _ => boldBody.events id) boldBody.source)).filterMap Section.heading) ↔
      boldBody.rest = [] ∨
        List.SublistForall₂ (fun heading line => headingText line = some heading) boldBody.headingLines
          (boldBody.brLines id) :=
  headings_survive_inline_iff id (fun _ => boldBody.events id) boldBody rfl

theorem bold_word_hides_heading :
    ¬ boldBody.headingLines.Sublist
      ((splitSections (clean (fun _ => boldBody.events id) boldBody.source)).filterMap Section.heading) := by
  decide

end Nipoto.Chunking
