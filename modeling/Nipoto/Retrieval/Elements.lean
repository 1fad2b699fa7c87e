import Nipoto.Retrieval.Dropped
import Nipoto.Retrieval.Outline

/-! # Headings and paragraphs in HTML

`htmlToText` writes heading elements as markdown and `splitSections` reads them
back. A document here is a sequence of heading and paragraph elements, each over
a text with single spaces between its words.
-/

namespace Nipoto.Chunking

open Text Text.Regex Clean

inductive Level where
  | h1 | h2 | h3 | h4 | h5 | h6
  deriving DecidableEq

namespace Level

def tag : Level → String
  | h1 => "h1"
  | h2 => "h2"
  | h3 => "h3"
  | h4 => "h4"
  | h5 => "h5"
  | h6 => "h6"

def depth : Level → Nat
  | h1 => 1
  | h2 => 2
  | h3 => 3
  | h4 => 4
  | h5 => 5
  | h6 => 6

def marks (l : Level) : Str := List.replicate l.depth '#'

theorem depth_bounds (l : Level) : 1 ≤ l.depth ∧ l.depth ≤ 6 := by cases l <;> decide

theorem kept (l : Level) : isDropped l.tag = false := by cases l <;> decide

theorem lookup_tag (l : Level) : headings.lookup l.tag = some l.marks := by cases l <;> decide

end Level

/-- The only white space is single spaces between words. -/
structure Spaced (text : Str) : Prop where
  spaces : ∀ c ∈ text, isSpace c = true → c = ' '
  single : ¬ [' ', ' '] <:+: text

/-- An element over a text, which the parser hands over in some pieces. A paragraph
    has no level. -/
structure Element where
  level : Option Level
  text : Str
  pieces : List Str
  filled : text ≠ []
  trimmed : strip text = text
  spaced : Spaced text
  whole : pieces.flatten = text

namespace Element

def tag (e : Element) : String := e.level.elim "p" Level.tag

def events (e : Element) : List Event := .starttag e.tag :: e.pieces.map .data ++ [.endtag e.tag]

/-- The heading of the section that the element opens; an h1 opens one with no heading. -/
def opens (e : Element) : Option (Option Str) :=
  match e.level with
  | some .h1 => some none
  | some .h2 | some .h3 => some (some e.text)
  | _ => none

def mark (e : Element) : Str := e.level.elim [] fun l => l.marks ++ [' ']

/-- The line that stands for the element. -/
def line (e : Element) : Str := e.mark ++ e.text

end Element

/-- What stands under a heading, or under no heading if there is anything. -/
def gathered (heading : Option Str) (under : List Element) : List (Option Str × List Element) :=
  if under ≠ [] ∨ heading.isSome then [(heading, under)] else []

/-- The elements by section: each h1, h2 or h3 begins the next one. -/
def sectioned (heading : Option Str) (under : List Element) : List Element → List (Option Str × List Element)
  | [] => gathered heading under
  | e :: rest =>
      match e.opens with
      | none => sectioned heading (under ++ [e]) rest
      | some next => gathered heading under ++ sectioned next [] rest

def paragraphs (under : List Element) : List Str := (under.filter (·.level.isNone)).map Element.text

/-- The sections of a document's text are those of its elements: the h2 and h3 texts
    are the headings, in order, and the paragraphs stand where the elements do. -/
structure SectionsAgree (doc : List Element) : Prop where
  headed : (splitSections (htmlToText (doc.flatMap Element.events))).filterMap Section.heading =
    doc.filterMap fun e => e.opens.join
  placed : List.Forall₂ (fun part s => s.heading = part.1 ∧ (paragraphs part.2).Sublist (content s.body))
    (sectioned none [] doc) (splitSections (htmlToText (doc.flatMap Element.events)))

namespace Spaced

variable {text : Str}

theorem part (spaced : Spaced text) {t : Str} (inside : t <:+: text) : Spaced t where
  spaces := fun c member => spaced.spaces c (inside.subset member)
  single := fun double => spaced.single (double.trans inside)

theorem no_break (spaced : Spaced text) : '\n' ∉ text := fun lineBreak =>
  absurd (spaced.spaces '\n' lineBreak (by decide)) (by decide)

/-- What the extractor folds. -/
def isFolded (c : Char) : Bool := c == ' ' || c == '\t' || c == '\r' || c == '\n'

theorem folded_space (spaced : Spaced text) {c : Char} (member : c ∈ text) (folded : isFolded c = true) :
    c = ' ' := by
  apply spaced.spaces c member
  simp only [isFolded, Bool.or_eq_true, beq_iff_eq] at folded
  obtain ((rfl | rfl) | rfl) | rfl := folded <;> decide

/-- Folding white space leaves single spaces alone. -/
theorem fold (spaced : Spaced text) : sub Extractor.whitespaceRun (fun _ => [' ']) text = text := by
  change squeeze 1 isFolded [' '] text = text
  induction text with
  | nil => rfl
  | cons c rest ih =>
      have later := ih (spaced.part (List.suffix_cons c rest).isInfix)
      cases folded : isFolded c with
      | false => rw [squeeze_outside Nat.one_pos folded, later]
      | true =>
          obtain rfl := spaced.folded_space List.mem_cons_self folded
          have alone : ∀ d ∈ rest.head?, isFolded d = false := by
            intro d first
            cases again : isFolded d with
            | false => rfl
            | true =>
                have inRest : d ∈ rest := List.mem_of_mem_head? first
                obtain rfl := spaced.folded_space (List.mem_cons_of_mem _ inRest) again
                obtain ⟨more, rfl⟩ := List.head?_eq_some_iff.mp first
                exact absurd ⟨[], more, rfl⟩ spaced.single
          have run := @squeeze_run 1 isFolded [' '] Nat.one_pos [' '] (by decide) rest alone
          simpa [later] using run

theorem blank (spaced : Spaced text) (gap : Blank text) : text = [] ∨ text = [' '] := by
  cases text with
  | nil => exact .inl rfl
  | cons c rest =>
      obtain rfl := spaced.spaces c List.mem_cons_self (gap c List.mem_cons_self)
      cases rest with
      | nil => exact .inr rfl
      | cons d rest =>
          obtain rfl := spaced.spaces d (by simp) (gap d (by simp))
          exact absurd ⟨[], rest, rfl⟩ spaced.single

theorem apart {a b : Str} (spaced : Spaced (a ++ b)) (opens : b.head? = some ' ') :
    Extractor.endsWithBlank a = false := by
  cases last : a.getLast? with
  | none => simp [Extractor.endsWithBlank, last]
  | some c =>
      obtain ⟨before, rfl⟩ := List.getLast?_eq_some_iff.mp last
      obtain ⟨after, rfl⟩ := List.head?_eq_some_iff.mp opens
      have space : c ≠ ' ' := by
        rintro rfl
        exact spaced.single ⟨before, after, by simp⟩
      have lineBreak : c ≠ '\n' := by
        rintro rfl
        exact spaced.no_break (by simp)
      simp [Extractor.endsWithBlank, space, lineBreak]

end Spaced

namespace Element

/-- A text may be written on: it is not dropped, and no space is written twice. -/
structure Ready (x : Extractor) (text : Str) : Prop where
  kept : x.skipDepth = 0
  begun : x.parts ≠ []
  apart : text.head? = some ' ' → ∀ part ∈ x.parts.getLast?, Extractor.endsWithBlank part = false

theorem handle_nothing (x : Extractor) : x.handle (.data []) = x := by
  simp only [Extractor.handle, Extractor.handleData]
  split
  · rfl
  · rfl

theorem handle_piece {x : Extractor} {piece rest : Str} (some : piece ≠ []) (spaced : Spaced (piece ++ rest))
    (ready : Ready x (piece ++ rest)) : x.handle (.data piece) = x.emit piece := by
  have here : Spaced piece := spaced.part (List.prefix_append piece rest).isInfix
  simp only [Extractor.handle, Extractor.handleData, ready.kept, here.fold]
  by_cases solid : strip piece = []
  · cases here.blank (strip_eq_nil.mp solid) with
    | inl nothing => exact absurd nothing some
    | inr space =>
        subst space
        have last : x.parts.getLast? = Option.some (x.parts.getLast ready.begun) :=
          List.getLast?_eq_some_getLast ready.begun
        have apart := ready.apart rfl _ last
        simp [solid, last, apart]
  · simp [solid, ready.begun]

/-- The pieces of a text are written as they are. -/
theorem feed_pieces {pieces : List Str} (spaced : Spaced pieces.flatten) {x : Extractor}
    (ready : Ready x pieces.flatten) :
    ∃ parts, x.feed (pieces.map .data) = { x with parts } ∧ parts.flatten = x.parts.flatten ++ pieces.flatten := by
  induction pieces generalizing x with
  | nil => exact ⟨x.parts, rfl, by simp⟩
  | cons piece pieces ih =>
      rw [List.flatten_cons] at spaced ready
      have later : Spaced pieces.flatten := spaced.part (List.suffix_append piece _).isInfix
      by_cases some : piece = []
      · subst some
        rw [List.map_cons, Extractor.feed_cons, handle_nothing]
        exact ih later ready
      · have next : Ready (x.emit piece) pieces.flatten := by
          refine ⟨ready.kept, by simp [Extractor.emit], ?_⟩
          intro opens part last
          obtain rfl : piece = part := by simpa [Extractor.emit] using last
          exact spaced.apart opens
        obtain ⟨parts, fed, written⟩ := ih later next
        rw [List.map_cons, Extractor.feed_cons, handle_piece some spaced ready, fed]
        exact ⟨parts, rfl, by simp [written, Extractor.emit]⟩

theorem handle_open (e : Element) {x : Extractor} (kept : x.skipDepth = 0) :
    ∃ parts last, x.handle (.starttag e.tag) = { x with parts := x.parts ++ (parts ++ [last]) } ∧
      (parts ++ [last]).flatten = ['\n', '\n'] ++ e.mark := by
  cases level : e.level with
  | none =>
      refine ⟨[], ['\n', '\n'], ?_, by simp [mark, level]⟩
      have isTag : e.tag = "p" := by simp [tag, level]
      have known : isDropped "p" = false ∧ headings.lookup "p" = none ∧ "p" ∈ blockTags := by decide
      simp [Extractor.handle, Extractor.handleStarttag, isTag, known, kept, Extractor.newline, Extractor.emit]
  | some l =>
      refine ⟨[['\n', '\n']], l.marks ++ [' '], ?_, by simp [mark, level]⟩
      have isTag : e.tag = l.tag := by simp [tag, level]
      simp [Extractor.handle, Extractor.handleStarttag, isTag, l.kept, l.lookup_tag, kept, Extractor.newline,
        Extractor.emit]

theorem handle_close (e : Element) {x : Extractor} (kept : x.skipDepth = 0) :
    x.handle (.endtag e.tag) = x.emit ['\n', '\n'] := by
  cases level : e.level with
  | none =>
      have isTag : e.tag = "p" := by simp [tag, level]
      have known : isDropped "p" = false ∧ "p" ∈ blockTags := by decide
      simp [Extractor.handle, Extractor.handleEndtag, isTag, known, kept, Extractor.newline]
  | some l =>
      have isTag : e.tag = l.tag := by simp [tag, level]
      have other : l.tag ≠ "ul" ∧ l.tag ≠ "ol" ∧ l.tag ≠ "li" := by cases l <;> decide
      simp [Extractor.handle, Extractor.handleEndtag, isTag, l.kept, l.lookup_tag, kept, other, Extractor.newline]

/-- An element writes its line between blank lines. -/
theorem feed_events (e : Element) {x : Extractor} (kept : x.skipDepth = 0) :
    ∃ parts, x.feed e.events = { x with parts } ∧
      parts.flatten = x.parts.flatten ++ (['\n', '\n'] ++ e.line ++ ['\n', '\n']) := by
  obtain ⟨opening, last, opened, wrote⟩ := handle_open e kept
  have ready : Ready (x.handle (.starttag e.tag)) e.pieces.flatten := by
    refine ⟨by rw [opened]; exact kept, by simp [opened], ?_⟩
    intro space
    rw [e.whole] at space
    have solid := strip_head ' ' (by rw [e.trimmed]; exact space)
    exact absurd solid (by decide)
  obtain ⟨parts, fed, text⟩ := feed_pieces (e.whole.symm ▸ e.spaced) ready
  refine ⟨parts ++ [['\n', '\n']], ?_, ?_⟩
  · rw [events, List.cons_append, Extractor.feed_cons, Extractor.feed_append, fed, Extractor.feed_cons, handle_close e]
    · simp [opened, Extractor.emit, Extractor.feed]
    · simpa [opened] using kept
  · have before : (x.handle (.starttag e.tag)).parts.flatten = x.parts.flatten ++ (['\n', '\n'] ++ e.mark) := by
      rw [opened, ← wrote]
      simp
    rw [List.flatten_append, text, before, e.whole, line]
    simp

end Element

theorem feed_document (doc : List Element) {x : Extractor} (kept : x.skipDepth = 0) :
    (x.feed (doc.flatMap Element.events)).parts.flatten =
      x.parts.flatten ++ doc.flatMap fun e => ['\n', '\n'] ++ e.line ++ ['\n', '\n'] := by
  induction doc generalizing x with
  | nil => simp [Extractor.feed]
  | cons e doc ih =>
      obtain ⟨parts, fed, wrote⟩ := e.feed_events kept
      rw [List.flatMap_cons, Extractor.feed_append, fed, ih (x := { x with parts }) kept, wrote, List.flatMap_cons,
        List.append_assoc]

namespace Element

theorem line_single (e : Element) : '\n' ∉ e.line := by
  intro lineBreak
  cases List.mem_append.mp lineBreak with
  | inr inText => exact e.spaced.no_break inText
  | inl inMark =>
      cases level : e.level with
      | none => simp [mark, level] at inMark
      | some l => simp [mark, level, Level.marks] at inMark

theorem line_trimmed (e : Element) : strip e.line = e.line := by
  apply strip_of_trimmed
  · cases level : e.level with
    | none =>
        simp only [line, mark, level]
        exact fun c first => strip_head c (by rw [e.trimmed]; exact first)
    | some l =>
        have positive := l.depth_bounds.1
        obtain ⟨n, depth⟩ : ∃ n, l.depth = n + 1 := ⟨l.depth - 1, by omega⟩
        simp [line, mark, level, Level.marks, depth, List.replicate_succ]
        decide
  · rw [line, List.getLast?_append_of_ne_nil _ e.filled]
    exact fun c last => strip_last c (by rw [e.trimmed]; exact last)

theorem line_filled (e : Element) : e.line ≠ [] := by simp [line, e.filled]

theorem boundary_level (e : Element) {l : Level} (level : e.level = some l) :
    boundary e.line = if l.depth ≤ 3 then some (l.depth, e.text) else none := by
  have split : strip e.line = List.replicate l.depth '#' ++ ([' '] ++ e.text) := by
    rw [e.line_trimmed]
    simp [line, mark, level, Level.marks]
  have read := boundary_complete split l.depth_bounds.1 l.depth_bounds.2 (by simp) (by decide) e.spaced.no_break
  rwa [e.trimmed] at read

end Element

theorem content_document (doc : List Element) :
    content (doc.flatMap fun e => ['\n', '\n'] ++ e.line ++ ['\n', '\n']) = doc.map Element.line := by
  induction doc with
  | nil => rfl
  | cons e doc ih =>
      rw [List.flatMap_cons, List.map_cons, ← ih]
      have first : content e.line = [e.line] := by
        rw [content_line e.line_single, if_neg (by simp [e.line_trimmed, e.line_filled]), e.line_trimmed]
      have lead := content_breaks (w := ['\n', '\n']) (by simp) (by simp) []
        (e.line ++ (['\n', '\n'] ++ doc.flatMap fun e => ['\n', '\n'] ++ e.line ++ ['\n', '\n']))
      have trail := content_breaks (w := ['\n', '\n']) (by simp) (by simp) e.line
        (doc.flatMap fun e => ['\n', '\n'] ++ e.line ++ ['\n', '\n'])
      simp only [List.append_assoc, List.nil_append] at lead trail ⊢
      rw [lead, trail, first]
      rfl

theorem htmlToText_document (doc : List Element) :
    content (htmlToText (doc.flatMap Element.events)) = doc.map Element.line := by
  rw [htmlToText, content_tidy, feed_document doc rfl]
  exact content_document doc

/-- A line is read as the element it was written for, if no paragraph looks like a heading. -/
theorem Element.boundary_line (e : Element) (plain : e.level = none → boundary e.text = none) :
    (boundary e.line).map (fun found => if found.1 = 1 then none else some found.2) = e.opens := by
  cases level : e.level with
  | none => simp [line, mark, opens, level, plain level]
  | some l => cases l <;> simp [e.boundary_level level, opens, level, Level.depth]

theorem kept_gathered {heading : Option Str} (named : ∀ name ∈ heading, name ≠ []) (under : List Element) :
    kept heading (under.map Element.line) =
      (gathered heading under).map fun part => (part.1, part.2.map Element.line) := by
  cases heading with
  | none => cases under <;> simp [kept, gathered, truthy]
  | some name => simp [kept, gathered, truthy, named name rfl]

theorem opens_named {e : Element} {next : Option Str} (opening : e.opens = some next) :
    ∀ name ∈ next, name ≠ [] := by
  intro name same
  subst same
  have text : name = e.text := by
    cases level : e.level with
    | none => simp [Element.opens, level] at opening
    | some l => cases l <;> simp_all [Element.opens]
  exact text ▸ e.filled

/-- The outline of the lines is that of the elements. -/
theorem outline_document {doc : List Element} (plain : ∀ e ∈ doc, e.level = none → boundary e.text = none)
    {heading : Option Str} (named : ∀ name ∈ heading, name ≠ []) (under : List Element) :
    outline heading (under.map Element.line) (doc.map Element.line) =
      (sectioned heading under doc).map fun part => (part.1, part.2.map Element.line) := by
  induction doc generalizing heading under with
  | nil => exact kept_gathered named under
  | cons e doc ih =>
      have later := fun d member => plain d (List.mem_cons_of_mem e member)
      have read := e.boundary_line (plain e List.mem_cons_self)
      rw [List.map_cons, outline, sectioned, ← read]
      cases closes : boundary e.line with
      | none =>
          have more := ih later named (under ++ [e])
          rw [List.map_append] at more
          exact more
      | some found =>
          rw [closes] at read
          have next := ih later (opens_named read.symm) []
          simp only [Option.map_some, List.map_append, kept_gathered named]
          rw [← next]
          rfl

theorem mem_sectioned {e : Element} {doc under : List Element} {heading : Option Str}
    (inside : e ∈ under ∨ e ∈ doc ∧ e.opens = none) : ∃ part ∈ sectioned heading under doc, e ∈ part.2 := by
  have closing : ∀ {under : List Element} {heading : Option Str}, e ∈ under →
      (heading, under) ∈ gathered heading under := by
    intro under heading here
    rw [gathered, if_pos (.inl (List.ne_nil_of_mem here))]
    exact List.mem_singleton_self _
  induction doc generalizing under heading with
  | nil => exact ⟨(heading, under), closing (by simpa using inside), by simpa using inside⟩
  | cons d doc ih =>
      rw [sectioned]
      cases opening : d.opens with
      | none =>
          apply ih
          grind
      | some next =>
          cases inside with
          | inl here => exact ⟨_, List.mem_append_left _ (closing here), here⟩
          | inr later =>
              have rest : e ∈ doc := by grind
              obtain ⟨part, known, member⟩ := @ih [] next (.inr ⟨rest, later.2⟩)
              exact ⟨part, List.mem_append_right _ known, member⟩

theorem paragraphs_lines (under : List Element) : (paragraphs under).Sublist (under.map Element.line) := by
  have same : paragraphs under = (under.filter (·.level.isNone)).map Element.line := by
    apply List.map_congr_left
    intro e member
    have level : e.level = none := by simpa using (List.mem_filter.mp member).2
    simp [Element.line, Element.mark, level]
  rw [same]
  exact List.filter_sublist.map Element.line

theorem related_of_mem {α β : Type} {R : α → β → Prop} {as : List α} {bs : List β} (related : List.Forall₂ R as bs)
    {a : α} (member : a ∈ as) : ∃ b ∈ bs, R a b := by
  induction related with
  | nil => exact absurd member List.not_mem_nil
  | cons here _ ih =>
      cases member with
      | head => exact ⟨_, List.mem_cons_self, here⟩
      | tail _ later =>
          obtain ⟨b, known, same⟩ := ih later
          exact ⟨b, List.mem_cons_of_mem _ known, same⟩

/-- The sections agree just for the documents in which no paragraph reads as an h1, h2
    or h3 heading line. -/
theorem sectionsAgree_iff (doc : List Element) :
    SectionsAgree doc ↔ ∀ e ∈ doc, e.level = none → boundary e.text = none := by
  have groups : (splitSections (htmlToText (doc.flatMap Element.events))).map Section.group =
      outline none [] (doc.map Element.line) := by rw [splitSections_outline, htmlToText_document]
  constructor
  · intro agree e member level
    have inside : e.opens = none := by simp [Element.opens, level]
    obtain ⟨part, known, under⟩ := @mem_sectioned e doc [] none (.inr ⟨member, inside⟩)
    obtain ⟨s, isSection, -, sub⟩ := related_of_mem agree.placed known
    have inBody : e.text ∈ content s.body := by
      apply sub.subset
      exact List.mem_map_of_mem (List.mem_filter.mpr ⟨under, by simp [level]⟩)
    have inOutline : s.group ∈ outline none [] (doc.map Element.line) := by
      rw [← groups]
      exact List.mem_map_of_mem isSection
    exact outline_body (by simp) _ inOutline _ inBody
  · intro plain
    have same := @outline_document doc plain none (by simp) []
    rw [List.map_nil, ← groups] at same
    constructor
    · rw [splitSections_headings, htmlToText_document, List.filterMap_map]
      apply List.filterMap_congr
      intro e member
      rw [← e.boundary_line (plain e member), Function.comp, headingText]
      cases boundary e.line <;> rfl
    · have related : List.Forall₂ (fun part s => (part.1, part.2.map Element.line) = s.group)
          (sectioned none [] doc) (splitSections (htmlToText (doc.flatMap Element.events))) := by
        apply List.forall₂_map_right_iff.mp
        apply List.forall₂_map_left_iff.mp
        rw [List.forall₂_eq_eq_eq]
        exact same.symm
      apply related.imp
      intro part s as
      obtain ⟨heading, body⟩ := Prod.mk.inj as
      exact ⟨heading.symm, body ▸ paragraphs_lines part.2⟩

/-- A paragraph element that is read as a section heading. -/
def markdownParagraph : Element where
  level := none
  text := "## x".toList
  pieces := ["## x".toList]
  filled := by decide
  trimmed := by decide
  spaced := ⟨by decide, by decide⟩
  whole := by decide

theorem paragraph_becomes_heading : ¬ SectionsAgree [markdownParagraph] := by
  intro agree
  have read : (splitSections (htmlToText markdownParagraph.events)).filterMap Section.heading = ["x".toList] := by
    decide
  have headed := agree.headed
  rw [List.flatMap_singleton, read] at headed
  exact absurd headed (by decide)

end Nipoto.Chunking
