import Nipoto.Retrieval.Pieces

/-! # The content of document chunks

Every line of a document is in its chunks, in order, but for h1 lines and for
headings with no text under them. A heading over text is shown in front of the
text unless the title stands in the text's first line.
-/

namespace Nipoto.Chunking

open Text Text.Regex Clean

/-- A heading, if it is shown over the lines that follow it. -/
def shownHeading (title : Str) : Option Str → List Str → List Str
  | some name, first :: _ =>
      if boundary first = none ∧ ¬ (title ≠ [] ∧ title <:+: first) then [name] else []
  | _, _ => []

/-- What a document shows of its content, when it has a line of text. -/
def shown (title : Str) : List Str → List Str
  | [] => []
  | line :: rest =>
      match boundary line with
      | none => line :: shown title rest
      | some (depth, text) =>
          shownHeading title (if depth = 1 then none else some text) rest ++ shown title rest

/-- A body line, or the text of an h2 or h3 heading. -/
def lineText (line : Str) : Option Str :=
  match boundary line with
  | none => some line
  | some (depth, text) => if depth = 1 then none else some text

/-- What the chunks of a document with this title and content have to show. -/
def represented (title : Str) (ls : List Str) : List Str :=
  if ∀ line ∈ ls, boundary line ≠ none then ls.filterMap lineText else shown title ls

theorem shownHeading_nil (title : Str) (heading : Option Str) : shownHeading title heading [] = [] := by
  cases heading <;> rfl

theorem shownHeading_none (title : Str) (ls : List Str) : shownHeading title none ls = [] := rfl

theorem shownHeading_boundary {title line : Str} (closes : boundary line ≠ none) (heading : Option Str)
    (rest : List Str) : shownHeading title heading (line :: rest) = [] := by
  cases heading with
  | none => rfl
  | some name => simp [shownHeading, closes]

theorem shownHeading_append {title : Str} {heading : Option Str} {first : List Str} (some : first ≠ [])
    (rest : List Str) : shownHeading title heading (first ++ rest) = shownHeading title heading first := by
  cases first with
  | nil => exact absurd rfl some
  | cons line first => cases heading <;> rfl

/-- The lines a section shows. -/
def sectionShown (title : Str) (s : Section) : List Str :=
  shownHeading title s.heading (content s.body) ++ content s.body

def contentOf (ls : List Str) : List Str := (ls.map strip).filter (· ≠ [])

@[simp] theorem contentOf_nil : contentOf [] = [] := rfl

theorem closed_shown (title : Str) (heading : Option Str) (level : Nat) {buffer : List Str}
    (single : ∀ line ∈ buffer, '\n' ∉ line) :
    (closed heading level buffer).flatMap (sectionShown title) =
      shownHeading title heading (contentOf buffer) ++ contentOf buffer := by
  have body : content (strip (join ['\n'] buffer)) = contentOf buffer := by
    rw [content_strip, content_join single, contentOf]
  simp only [closed]
  split
  · simp [sectionShown, body]
  · rename_i dropped
    simp only [ne_eq, not_or, not_not] at dropped
    rw [dropped.1, content_nil] at body
    simp [← body, shownHeading_nil]

theorem sectionsFrom_shown (title : Str) {ls : List Str} (single : ∀ line ∈ ls, '\n' ∉ line)
    (heading : Option Str) (level : Nat) {buffer : List Str}
    (bufferSingle : ∀ line ∈ buffer, '\n' ∉ line) :
    (sectionsFrom heading level buffer ls).flatMap (sectionShown title) =
      shownHeading title heading (contentOf buffer ++ contentOf ls) ++ contentOf buffer ++
        shown title (contentOf ls) := by
  induction ls generalizing heading level buffer with
  | nil => simpa [sectionsFrom, contentOf, shown] using closed_shown title heading level bufferSingle
  | cons line rest ih =>
      have lineSingle := single line List.mem_cons_self
      have restSingle := fun l member => single l (List.mem_cons_of_mem line member)
      rw [sectionsFrom]
      cases closes : boundary line with
      | none =>
          have longer : ∀ l ∈ buffer ++ [line], '\n' ∉ l := by
            intro l member
            cases List.mem_append.mp member with
            | inl earlier => exact bufferSingle l earlier
            | inr last => exact List.mem_singleton.mp last ▸ lineSingle
          simp only [ih restSingle heading level longer]
          by_cases blank : strip line = []
          · simp [contentOf, blank]
          · simp [contentOf, blank, shown, boundary_strip, closes]
      | some found =>
          obtain ⟨depth, text⟩ := found
          have solid : strip line ≠ [] := fun blank => by simp [boundary_blank blank] at closes
          have split : contentOf (line :: rest) = strip line :: contentOf rest := by
            simp [contentOf, solid]
          have stripped : boundary (strip line) = some (depth, text) := by rw [boundary_strip, closes]
          have nothing : ∀ l ∈ ([] : List Str), '\n' ∉ l := by simp
          have later := ih restSingle (if depth = 1 then none else some text)
            (if depth = 1 then 0 else depth) nothing
          simp only [List.flatMap_append, closed_shown title heading level bufferSingle, later, split,
            shown, stripped]
          by_cases empty : contentOf buffer = []
          · have hidden : shownHeading title heading (strip line :: contentOf rest) = [] :=
              shownHeading_boundary (stripped ▸ Option.some_ne_none _) heading (contentOf rest)
            simp [empty, hidden, shownHeading_nil]
          · simp [shownHeading_append empty]

theorem splitSections_shown (title text : Str) :
    (splitSections text).flatMap (sectionShown title) = shown title (content text) := by
  rw [splitSections_eq, sectionsFrom_shown title (fun _ => lines_single) none 0 (by simp)]
  rfl

/-- `indexedText` of what indexing reads. -/
def indexedEntry (title : Str) (e : Option Str × Str) : Str :=
  if title ≠ [] ∧ contains title (firstLine e.2) = true then e.2
  else titlePrefix title e.1 ++ ['\n'] ++ e.2

theorem piece_occurs (title : Str) (e : Option Str × Str) :
    Occurs (content e.2) (lines (indexedEntry title e)) := by
  simp only [indexedEntry]
  split
  · exact content_in_lines e.2
  · have split : lines (titlePrefix title e.1 ++ ['\n'] ++ e.2) =
        lines (titlePrefix title e.1) ++ lines e.2 := by
      rw [List.append_assoc]
      exact lines_append _ _
    rw [split]
    exact occurs_append .nil (content_in_lines e.2)

theorem heading_in_title {name : Str} (filled : name ≠ []) (title : Str) :
    name <:+: titlePrefix title (some name) := by
  by_cases same : name = title
  · simp [titlePrefix, same]
  · simp only [titlePrefix, if_pos (And.intro filled same)]
    exact (List.suffix_append _ name).isInfix

theorem heading_occurs {title name piece : Str} (named : name ≠ [] ∧ '\n' ∉ name)
    (missing : ¬ (title ≠ [] ∧ title <:+: firstLine piece)) :
    Occurs (name :: content piece) (lines (indexedEntry title (some name, piece))) := by
  have split : lines (titlePrefix title (some name) ++ ['\n'] ++ piece) =
      lines (titlePrefix title (some name)) ++ lines piece := by
    rw [List.append_assoc]
    exact lines_append _ _
  obtain ⟨line, member, inLine⟩ := occurs_in_line named.2 (heading_in_title named.1 title)
  have first : Occurs [name] (lines (titlePrefix title (some name))) :=
    occurs_trans (.cons inLine .nil) (occurs_of_sublist (List.singleton_sublist.mpr member))
  simp only [indexedEntry, contains, decide_eq_true_eq, if_neg missing, split]
  exact occurs_append first (content_in_lines piece)

theorem section_occurs {title : Str} (trimmed : strip title = title) {maxTokens overlapTokens : Nat}
    {s : Section} (named : ∀ name ∈ s.heading, name ≠ [] ∧ '\n' ∉ name) :
    Occurs (sectionShown title s)
      ((piecesOf maxTokens overlapTokens s).flatMap fun piece =>
        lines (indexedEntry title (s.heading, piece))) := by
  have cut : Cut s (piecesOf maxTokens overlapTokens s) := piecesOf_cut
  cases pieces : piecesOf maxTokens overlapTokens s with
  | nil =>
      have nothing := cut.kept
      rw [pieces, List.flatMap_nil, List.sublist_nil] at nothing
      rw [sectionShown, nothing, shownHeading_nil]
      exact .nil
  | cons piece more =>
      rw [pieces] at cut
      have later : Occurs (more.flatMap content)
          (more.flatMap fun piece => lines (indexedEntry title (s.heading, piece))) :=
        occurs_flatMap fun p _ => piece_occurs title (s.heading, p)
      have kept : (content s.body).Sublist (content piece ++ more.flatMap content) := cut.kept
      have body : Occurs (content s.body)
          ((piece :: more).flatMap fun piece => lines (indexedEntry title (s.heading, piece))) :=
        occurs_trans (occurs_of_sublist kept)
          (occurs_append (piece_occurs title (s.heading, piece)) later)
      cases heading : s.heading with
      | none => simpa only [sectionShown, heading, shownHeading_none, List.nil_append] using body
      | some name =>
          obtain ⟨c, rest, opens, solid⟩ := cut.solid piece List.mem_cons_self
          have first := cut.opening piece rfl
          rw [opens, content_head solid, ← opens] at first
          cases lines : content s.body with
          | nil => simp [lines] at first
          | cons line following =>
              obtain rfl : strip (firstLine piece) = line := by simpa [lines] using first
              rw [sectionShown, heading, lines, shownHeading]
              split
              · rename_i shows
                have missing : ¬ (title ≠ [] ∧ title <:+: firstLine piece) := fun both =>
                  shows.2 ⟨both.1, infix_strip trimmed both.2⟩
                rw [lines] at kept
                have withName := (List.Sublist.refl [name]).append kept
                have whole := occurs_append (heading_occurs (named name heading) missing) later
                rw [heading] at whole
                exact occurs_trans (occurs_of_sublist withName) whole
              · rw [heading, lines] at body
                exact body

theorem shown_of_headings {title : Str} {ls : List Str} (headings : ∀ line ∈ ls, boundary line ≠ none) :
    shown title ls = [] := by
  induction ls with
  | nil => rfl
  | cons line rest ih =>
      have later := fun l member => headings l (List.mem_cons_of_mem line member)
      have silent : ∀ name, shownHeading title name rest = [] := by
        intro name
        cases rest with
        | nil => exact shownHeading_nil title name
        | cons next rest => exact shownHeading_boundary (later next List.mem_cons_self) name rest
      cases closes : boundary line with
      | none => exact absurd closes (headings line List.mem_cons_self)
      | some found => simp only [shown, closes, silent, ih later, List.append_nil]

theorem lineText_occurs (ls : List Str) : Occurs (ls.filterMap lineText) ls := by
  induction ls with
  | nil => exact .nil
  | cons line rest ih =>
      cases shows : lineText line with
      | none => simpa [shows] using List.SublistForall₂.cons_right ih
      | some text =>
          have inLine : text <:+: line := by
            simp only [lineText] at shows
            cases closes : boundary line with
            | none =>
                simp only [closes, Option.some.injEq] at shows
                exact shows ▸ List.infix_rfl
            | some found =>
                obtain ⟨depth, heading⟩ := found
                by_cases top : depth = 1
                · simp [closes, top] at shows
                · simp only [closes, if_neg top, Option.some.injEq] at shows
                  exact shows ▸ (boundary_sound closes).2.2.2.trans (strip_isInfix line)
          simpa [shows] using List.SublistForall₂.cons inLine ih

theorem shown_eq_nil {title : Str} {ls : List Str} (nothing : shown title ls = []) :
    ∀ line ∈ ls, boundary line ≠ none := by
  induction ls with
  | nil => simp
  | cons line rest ih =>
      cases closes : boundary line with
      | none => simp [shown, closes] at nothing
      | some found =>
          simp only [shown, closes, List.append_eq_nil_iff] at nothing
          intro l member
          cases List.mem_cons.mp member with
          | inl same => simp [same, closes]
          | inr later => exact ih nothing.2 l later

variable {α : Type} {parse : Str → List Event} {item : Item α}

theorem sectionPieces_occurs {title : Str} (trimmed : strip title = title) {maxTokens overlapTokens : Nat}
    (text : Str) :
    Occurs (shown title (content text))
      ((sectionPieces maxTokens overlapTokens text).flatMap fun e => lines (indexedEntry title e)) := by
  rw [← splitSections_shown, sectionPieces, List.flatMap_assoc]
  apply occurs_flatMap
  intro s member
  rw [List.flatMap_map]
  exact section_occurs trimmed (splitSections_wellFormed member).named

theorem sectionPieces_of_headings {text : Str} (headings : ∀ line ∈ content text, boundary line ≠ none)
    (maxTokens overlapTokens : Nat) : sectionPieces maxTokens overlapTokens text = [] := by
  have silent := splitSections_shown [] text
  rw [shown_of_headings headings, List.flatMap_eq_nil_iff] at silent
  rw [sectionPieces, List.flatMap_eq_nil_iff]
  intro s member
  have blank := (List.append_eq_nil_iff.mp (silent s member)).2
  rw [piecesOf, if_pos (strip_eq_nil.mpr (content_eq_nil.mp blank)), List.map_nil]

theorem chunkDocument_represents (isDoc : item.type = "doc".toList) :
    Occurs (represented item.cleanTitle (content (clean parse item.bodyText)))
      ((chunkDocument parse item).flatMap fun chunk => lines chunk.text) := by
  have trimmed : strip item.cleanTitle = item.cleanTitle := strip_strip _
  have texts : ((chunkDocument parse item).flatMap fun chunk => lines chunk.text) =
      ((chunkDoc parse item.cleanTitle item.bodyText docMaxTokens docOverlapTokens : List (Chunk α)).map
        entry).flatMap fun e => lines (indexedEntry item.cleanTitle e) := by
    have indexed := @chunkDocument_entries α parse item isDoc
    have pieces := congrArg (List.flatMap fun e => lines e.2) indexed
    rw [List.flatMap_map, List.flatMap_map] at pieces
    rw [List.flatMap_map]
    exact pieces
  rw [texts, chunkDoc_entries]
  generalize clean parse item.bodyText = text
  have sections := @sectionPieces_occurs item.cleanTitle trimmed docMaxTokens docOverlapTokens text
  split
  · -- no section has a body, so the chunk is the whole text
    rename_i whole
    have headings : ∀ line ∈ content text, boundary line ≠ none := by
      have nothing : shown item.cleanTitle (content text) = [] := by
        simpa [whole.1] using List.sublistForall₂_iff.mp sections
      exact shown_eq_nil nothing
    have inText := piece_occurs item.cleanTitle (none, strip text)
    rw [content_strip] at inText
    rw [represented, if_pos headings]
    simpa using occurs_trans (lineText_occurs (content text)) inText
  · rename_i cut
    rw [represented]
    split
    · rename_i headings
      have nothing := sectionPieces_of_headings headings docMaxTokens docOverlapTokens
      have blank : strip text = [] := by simpa [nothing] using cut
      rw [content_eq_nil.mpr (strip_eq_nil.mp blank)]
      exact .nil
    · exact sections

theorem chunkDocument_represents_wallet :
    let item : Item Unit :=
      { title := some "Help".toList, body := some "# Help\n\n## Wallet\n\nCharge it.".toList }
    Occurs (represented item.cleanTitle (content (clean (fun _ => []) item.bodyText)))
      ((chunkDocument (fun _ => []) item).flatMap fun chunk => lines chunk.text) :=
  chunkDocument_represents rfl

/-- A heading over another heading is in no chunk. -/
theorem bare_heading_is_lost :
    ¬ ∀ (parse : Str → List Event) (item : Item Unit), item.type = "doc".toList →
      ∀ text ∈ (content (clean parse item.bodyText)).filterMap lineText,
        ∃ chunk ∈ chunkDocument parse item, text <:+: chunk.text := by
  intro always
  have here := always (fun _ => [])
    { title := some "Help".toList, body := some "## Wallet\n\n## Refund\n\nAsk us.".toList } rfl
    "Wallet".toList (by decide +kernel)
  revert here
  decide +kernel

end Nipoto.Chunking
