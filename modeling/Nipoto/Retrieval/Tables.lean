import Nipoto.Retrieval.Inline
import Nipoto.Text.Words

/-! # Table cells

A row of a table begins and ends a line, and a cell writes only its text. What
keeps two cells apart is the white space between their tags.
-/

namespace Nipoto.Clean

open Text Text.Regex
open Chunking (Writes writes_nothing)
open Chunking.InlineBody (addRun addRun_single)

/-- A header or data cell over a trimmed text, which the parser hands over in some pieces. -/
structure TableCell where
  header : Bool
  text : Str
  pieces : List Str
  filled : text ≠ []
  trimmed : strip text = text
  whole : pieces.flatten = text

/-- The cells of a `tr`, each with the white space after its end tag. -/
structure TableRow where
  opening : Str
  cells : List (TableCell × Str)
  openingBlank : Blank opening
  cellsBlank : ∀ c ∈ cells, Blank c.2

/-- The rows of a table, each with the white space after its end tag. -/
structure Table where
  opening : Str
  rows : List (TableRow × Str)
  openingBlank : Blank opening
  rowsBlank : ∀ r ∈ rows, Blank r.2

/-- White space between tags, if there is any. -/
def gapEvents (gap : Str) : List Event := if gap = [] then [] else [.data gap]

def TableCell.tag (c : TableCell) : String := if c.header then "th" else "td"

def TableCell.events (c : TableCell) : List Event :=
  .starttag c.tag :: c.pieces.map .data ++ [.endtag c.tag]

def TableRow.events (r : TableRow) : List Event :=
  .starttag "tr" :: gapEvents r.opening ++ (r.cells.flatMap fun c => c.1.events ++ gapEvents c.2) ++ [.endtag "tr"]

def Table.events (t : Table) : List Event :=
  .starttag "table" :: gapEvents t.opening ++ (t.rows.flatMap fun r => r.1.events ++ gapEvents r.2) ++
    [.endtag "table"]

/-- The words of the cells, cell by cell. -/
def TableRow.cellWords (r : TableRow) : List Str := r.cells.flatMap fun c => words c.1.text

/-- Each row with a cell is a line of its own, and its words are those of its cells. -/
def Table.Apart (t : Table) : Prop :=
  (content (htmlToText t.events)).map words = (t.rows.map fun r => r.1.cellWords).filter (· ≠ [])

/-- There is white space after every cell but the last. -/
def TableRow.Spaced (r : TableRow) : Prop := ∀ c ∈ r.cells.dropLast, c.2 ≠ []

/-- A row without its tags. -/
def TableRow.source (r : TableRow) : Str := r.opening ++ r.cells.flatMap fun c => c.1.text ++ c.2

theorem TableCell.begins (c : TableCell) (rest : Str) : beginsSolid (c.text ++ rest) = true := by
  obtain ⟨d, text, split⟩ := List.exists_cons_of_ne_nil c.filled
  have solid := strip_head d (by rw [c.trimmed, split]; rfl)
  simp [split, beginsSolid, solid]

theorem TableCell.ends (c : TableCell) : ∃ d ∈ c.text.getLast?, isSpace d = false := by
  have last := List.getLast?_eq_some_getLast c.filled
  exact ⟨_, last, strip_last _ (by rw [c.trimmed]; exact last)⟩

theorem cells_begin {c : TableCell × Str} (rest : List (TableCell × Str)) :
    beginsSolid ((c :: rest).flatMap fun c => c.1.text ++ c.2) = true := by
  rw [List.flatMap_cons, List.append_assoc]
  exact c.1.begins _

/-- Two cells without white space between them share a word. -/
theorem length_words_cells {cells : List (TableCell × Str)} (blank : ∀ c ∈ cells, Blank c.2) :
    (words (cells.flatMap fun c => c.1.text ++ c.2)).length + (cells.dropLast.filter (·.2 = [])).length =
      (cells.flatMap fun c => words c.1.text).length := by
  induction cells with
  | nil => simp [words_nil]
  | cons c cells ih =>
      have gap := blank c List.mem_cons_self
      have later := ih fun d member => blank d (List.mem_cons_of_mem c member)
      cases cells with
      | nil => simp [words_append_blank c.1.text gap]
      | cons d rest =>
          have begins := @cells_begin d rest
          rw [@List.flatMap_cons _ _ c (d :: rest), @List.flatMap_cons _ _ c (d :: rest), List.append_assoc,
            @List.length_append _ (words c.1.text), ← later, List.dropLast_cons_cons]
          by_cases apart : c.2 = []
          · have touching := length_words_touching c.1.ends begins
            simp only [apart, List.nil_append, List.filter_cons_of_pos, decide_true, List.length_cons]
            omega
          · rw [words_gap gap apart, List.length_append, List.filter_cons_of_neg (by simpa using apart), Nat.add_assoc]

theorem words_cells {cells : List (TableCell × Str)} (blank : ∀ c ∈ cells, Blank c.2) :
    (words (cells.flatMap fun c => c.1.text ++ c.2) = cells.flatMap fun c => words c.1.text) ↔
      ∀ c ∈ cells.dropLast, c.2 ≠ [] := by
  constructor
  · intro same c member empty
    have count := length_words_cells blank
    rw [same] at count
    have none : cells.dropLast.filter (·.2 = []) = [] := List.length_eq_zero_iff.mp (by omega)
    exact List.filter_eq_nil_iff.mp none c member (by simpa using empty)
  · intro apart
    induction cells with
    | nil => exact words_nil
    | cons c cells ih =>
        have gap := blank c List.mem_cons_self
        cases cells with
        | nil => simp [words_append_blank c.1.text gap]
        | cons d rest =>
            rw [List.dropLast_cons_cons] at apart
            have later := ih (fun e member => blank e (List.mem_cons_of_mem c member))
              fun e member => apart e (List.mem_cons_of_mem c member)
            rw [List.flatMap_cons, List.append_assoc, words_gap gap (apart c List.mem_cons_self), later]
            rfl

theorem TableRow.words_source (r : TableRow) : words r.source = r.cellWords ↔ r.Spaced := by
  rw [source, words_blank_append r.openingBlank]
  exact words_cells r.cellsBlank

theorem TableCell.shown (c : TableCell) : ¬ Blank c.text := by
  intro blank
  have none := strip_eq_nil.mpr blank
  rw [c.trimmed] at none
  exact c.filled none

/-- A row shows nothing just if it has no cell. -/
theorem TableRow.words_nil_iff (r : TableRow) : words r.source = [] ↔ r.cellWords = [] := by
  rw [words_eq_nil]
  cases split : r.cells with
  | nil => simpa [source, cellWords, split] using r.openingBlank
  | cons c rest =>
      apply iff_of_false
      · intro blank
        exact c.1.shown fun d member => blank d (by simp [source, split, member])
      · simp [cellWords, split, words_eq_nil, c.1.shown]

theorem words_fold (a run t : Str) :
    words (a ++ sub Extractor.whitespaceRun (fun _ => [' ']) run ++ t) = words (a ++ run ++ t) := by
  apply fold_keeps fun s => words (s ++ t)
  intro a w b blank some
  have space : Blank [' '] := by decide
  simp only [List.append_assoc]
  rw [words_gap space (by simp), words_gap blank some]

/-- White space at the end of a line that already ends with some. -/
theorem words_again {line : Str} (ends : Extractor.endsWithBlank line = true) {w : Str} (blank : Blank w) (t : Str) :
    words (line ++ (w ++ t)) = words (line ++ t) := by
  obtain ⟨c, last, known⟩ := (Option.any_eq_true _ _).mp ends
  obtain ⟨l, rfl⟩ := List.getLast?_eq_some_iff.mp last
  have space : isSpace c = true := by
    simp only [Bool.or_eq_true, beq_iff_eq] at known
    obtain rfl | rfl := known <;> decide
  rw [List.append_assoc, List.append_assoc, List.singleton_append, List.singleton_append, words_space space,
    words_space space, words_blank_append blank]

/-- A run at the end of a line adds its words, and what follows touches it as in the source. -/
theorem words_addRun (line run t : Str) : words (addRun line run ++ t) = words (line ++ run ++ t) := by
  rw [← words_fold line run t]
  simp only [addRun]
  generalize sub Extractor.whitespaceRun (fun _ => [' ']) run = text
  by_cases blank : Blank text
  · rw [if_neg (not_not.mpr (strip_eq_nil.mpr blank))]
    by_cases some : text = []
    · simp [some]
    · by_cases start : line = []
      · simp [start, words_blank_append blank]
      · cases ends : Extractor.endsWithBlank line with
        | true => simp [words_again ends blank]
        | false =>
            have space : Blank [' '] := by decide
            rw [if_pos ⟨some, start, rfl⟩, List.append_assoc, List.append_assoc, words_gap space (by simp),
              words_gap blank some]
  · rw [if_pos fun none => blank (strip_eq_nil.mp none)]

theorem words_addRuns (runs : List Str) (line t : Str) :
    words (runs.foldl addRun line ++ t) = words (line ++ runs.flatten ++ t) := by
  induction runs generalizing line with
  | nil => simp
  | cons run runs ih =>
      rw [List.foldl_cons, ih, List.append_assoc, words_addRun]
      simp

/-- White space leaves the line blank. -/
theorem blank_addRun {gap : Str} (blank : Blank gap) : Blank (addRun [] gap) := by
  have same := words_addRun [] gap []
  rw [List.append_nil, List.append_nil, List.nil_append, words_eq_nil.mpr blank] at same
  exact words_eq_nil.mp same

theorem addRuns_single (runs : List Str) {line : Str} (single : '\n' ∉ line) : '\n' ∉ runs.foldl addRun line := by
  induction runs generalizing line with
  | nil => exact single
  | cons run runs ih => exact ih (addRun_single single run)

/-- The line of a row, as it is written. -/
def TableRow.line (r : TableRow) : Str :=
  (r.opening :: r.cells.flatMap fun c => c.1.pieces ++ [c.2]).foldl addRun []

theorem handle_cell (c : TableCell) {x : Extractor} (kept : x.skipDepth = 0) :
    x.handle (.starttag c.tag) = x ∧ x.handle (.endtag c.tag) = x := by
  have known : isDropped c.tag = false ∧ c.tag ∉ blockTags := by
    rw [TableCell.tag]
    split <;> decide
  exact Extractor.handle_unlisted known.1 known.2 kept

theorem handle_frame {tag : String} (frame : tag = "table" ∨ tag = "tr") {x : Extractor} (kept : x.skipDepth = 0) :
    x.handle (.starttag tag) = x.newline 2 ∧ x.handle (.endtag tag) = x.newline 2 := by
  have known : isDropped tag = false ∧ headings.lookup tag = none ∧ tag ∈ blockTags ∧
      tag ≠ "ul" ∧ tag ≠ "ol" ∧ tag ≠ "li" ∧ tag ≠ "br" := by
    obtain rfl | rfl := frame <;> decide
  simp [Extractor.handle, Extractor.handleStarttag, Extractor.handleEndtag, known, kept]

section Feeding

variable {x : Extractor} {before : List Str} {line : Str} (writes : Writes x before line)

include writes

theorem writes_data (runs : List Str) : Writes (x.feed (runs.map .data)) before (runs.foldl addRun line) := by
  induction runs generalizing x line with
  | nil => exact writes
  | cons run runs ih => exact ih (writes.data run)

theorem writes_gap (gap : Str) : Writes (x.feed (gapEvents gap)) before (addRun line gap) := by
  simp only [gapEvents]
  split
  · rename_i none
    have same : addRun line gap = line := by simp [none, addRun, sub, strip, lstrip, rstrip]
    rw [same]
    exact writes
  · exact writes.data gap

theorem feed_cell (c : TableCell) : Writes (x.feed c.events) before (c.pieces.foldl addRun line) := by
  have inside := writes_data writes c.pieces
  have opened := (handle_cell c writes.kept).1
  have ended := (handle_cell c inside.kept).2
  rw [TableCell.events, List.cons_append, Extractor.feed_cons, opened, Extractor.feed_append, Extractor.feed_cons, ended]
  exact inside

theorem feed_cells (cells : List (TableCell × Str)) :
    Writes (x.feed (cells.flatMap fun c => c.1.events ++ gapEvents c.2)) before
      ((cells.flatMap fun c => c.1.pieces ++ [c.2]).foldl addRun line) := by
  induction cells generalizing x line with
  | nil => exact writes
  | cons c cells ih =>
      have here := writes_gap (feed_cell writes c.1) c.2
      rw [← Extractor.feed_append] at here
      have later := ih here
      rw [← Extractor.feed_append] at later
      simpa using later

/-- A row ends the line before it and its own. -/
theorem feed_row (r : TableRow) : Writes (x.feed r.events) (before ++ content line ++ content r.line) [] := by
  have opened := writes.newline 2 Nat.two_pos
  rw [← (handle_frame (.inr rfl) writes.kept).1] at opened
  have inside := feed_cells (writes_gap opened r.opening) r.cells
  have ended := inside.newline 2 Nat.two_pos
  rw [← (handle_frame (.inr rfl) inside.kept).2, ← Extractor.feed_append] at ended
  rw [TableRow.events, List.cons_append, List.cons_append, Extractor.feed_cons, Extractor.feed_append]
  exact ended

theorem feed_rows {rows : List (TableRow × Str)} (blank : ∀ r ∈ rows, Blank r.2) :
    content (x.feed ((rows.flatMap fun r => r.1.events ++ gapEvents r.2) ++ [.endtag "table"])).parts.flatten =
      before ++ content line ++ rows.flatMap fun r => content r.1.line := by
  induction rows generalizing x before line with
  | nil =>
      have ended := writes.newline 2 Nat.two_pos
      rw [← (handle_frame (.inl rfl) writes.kept).2] at ended
      simpa [Extractor.feed, content_nil] using ended.content_parts
  | cons r rows ih =>
      have gap := writes_gap (feed_row writes r.1) r.2
      have later := ih gap fun s member => blank s (List.mem_cons_of_mem r member)
      rw [content_eq_nil.mpr (blank_addRun (blank r List.mem_cons_self))] at later
      rw [List.flatMap_cons, List.append_assoc, List.append_assoc, Extractor.feed_append, Extractor.feed_append, later]
      simp

end Feeding

theorem content_table (t : Table) : content (htmlToText t.events) = t.rows.flatMap fun r => content r.1.line := by
  have opened := writes_nothing.newline 2 Nat.two_pos
  rw [← (handle_frame (.inl rfl) writes_nothing.kept).1] at opened
  have inside := writes_gap opened t.opening
  have rows := feed_rows inside t.rowsBlank
  rw [content_eq_nil.mpr (blank_addRun t.openingBlank)] at rows
  rw [htmlToText, content_tidy, Table.events, List.cons_append, List.cons_append, List.append_assoc, Extractor.feed_cons,
    Extractor.feed_append, rows]
  simp [content_nil]

theorem TableRow.words_line (r : TableRow) : words r.line = words r.source := by
  have read := words_addRuns (r.opening :: r.cells.flatMap fun c => c.1.pieces ++ [c.2]) [] []
  have parts : (r.cells.flatMap fun c => c.1.pieces ++ [c.2]).flatten = r.cells.flatMap fun c => c.1.text ++ c.2 := by
    induction r.cells with
    | nil => rfl
    | cons c cells ih => simp [ih, c.1.whole]
  rw [List.append_nil, List.append_nil, List.nil_append, List.flatten_cons, parts] at read
  exact read

/-- A row is one line, with the words of the row. -/
theorem TableRow.content_line (r : TableRow) : (content r.line).map words = [words r.source].filter (· ≠ []) := by
  have single : '\n' ∉ r.line := addRuns_single _ (by simp)
  rw [Text.content_line single, ← r.words_line]
  by_cases blank : Blank r.line
  · rw [if_pos (strip_eq_nil.mpr blank), words_eq_nil.mpr blank]
    rfl
  · have some : words r.line ≠ [] := fun none => blank (words_eq_nil.mp none)
    rw [if_neg fun none => blank (strip_eq_nil.mp none), List.map_singleton, words_strip]
    simp [some]

/-- Two lists that are empty at the same places agree just if they agree where they are not. -/
theorem filter_map_eq_iff {α β : Type} {f g : α → List β} {items : List α}
    (same : ∀ item ∈ items, f item = [] ↔ g item = []) :
    (items.flatMap fun item => [f item].filter (· ≠ [])) = (items.map g).filter (· ≠ []) ↔
      ∀ item ∈ items, f item = g item := by
  induction items with
  | nil => simp
  | cons item items ih =>
      have here := same item List.mem_cons_self
      have later := ih fun i member => same i (List.mem_cons_of_mem item member)
      rw [List.flatMap_cons, List.map_cons, List.forall_mem_cons]
      by_cases none : g item = []
      · simpa [none, here.mpr none] using later
      · have some : f item ≠ [] := fun gone => none (here.mp gone)
        simpa [none, some] using fun _ => later

/-- The rows of a table are lines with the words of their cells just if there is white
    space between the tags of every two neighbouring cells. -/
theorem Table.apart_iff_spaced (t : Table) : t.Apart ↔ ∀ r ∈ t.rows, r.1.Spaced := by
  rw [Apart, content_table, List.map_flatMap, funext fun r : TableRow × Str => r.1.content_line,
    filter_map_eq_iff fun r _ => r.1.words_nil_iff]
  exact forall₂_congr fun r _ => r.1.words_source

def numberCell (text : Str) (filled : text ≠ []) (trimmed : strip text = text) : TableCell where
  header := false
  text
  pieces := [text]
  filled
  trimmed
  whole := List.flatten_singleton

/-- One row with two numbers, and no white space between its tags. -/
def compactTable : Table where
  opening := []
  rows := [({ opening := []
              cells := [(numberCell ['1', '2'] (by decide) (by decide), []), (numberCell ['5'] (by decide) (by decide), [])]
              openingBlank := by decide
              cellsBlank := by simp [Blank] }, [])]
  openingBlank := by decide
  rowsBlank := by simp [Blank]

theorem compact_numbers_fused : ¬ ∀ t : Table, t.Apart := by
  intro all
  have text : htmlToText compactTable.events = "125".toList := by decide
  have apart := all compactTable
  rw [Table.Apart, text] at apart
  exact absurd apart (by decide)

end Nipoto.Clean
