import Nipoto.Retrieval.Chunk

/-! # Sections

What `splitSections` makes of a list of lines, by recursion: the open section is
closed at each h1, h2 or h3 line and at the end.
-/

namespace Nipoto.Chunking

open Text Text.Regex

theorem heading_sound {l : Str} {found : Cursor} (isHeading : heading.matchAt [] l = some found) :
    ∃ marks gap text rest, l = marks ++ (gap ++ (text ++ rest)) ∧ marks ≠ [] ∧ (∀ c ∈ marks, c = '#') ∧
      gap ≠ [] ∧ Blank gap ∧ (rest = [] ∨ rest = ['\n']) ∧ found.group 1 = marks ∧ found.group 2 = text := by
  obtain ⟨c1, ⟨-, rfl⟩, c2, ⟨e2, marked, rfl⟩, c3, spaced, c4, ⟨e4, worded, rfl⟩, c5, ⟨stop, rfl⟩, same⟩ :=
    Pattern.matchAt_sound isHeading
  obtain ⟨marks, afterMarks, split1, some1, hashes, rfl⟩ := matches_bounded marked
  obtain ⟨gap, afterGap, split2, some2, blank, rfl⟩ := matches_many.mp spaced
  obtain ⟨text, rest, split3, -, -, rfl⟩ := matches_many.mp worded
  obtain rfl : found = _ := same
  simp only at split1 split2 split3 stop
  refine ⟨marks, gap, text, rest, ?_, List.ne_nil_of_length_pos some1, ?_, List.ne_nil_of_length_pos some2,
    blank, stop, ?_, ?_⟩
  · rw [split1, split2, split3]
  · exact fun c member => by simpa using hashes c member
  · simpa [Cursor.group, List.lookup_cons] using readUpTo_append split1
  · simpa [Cursor.group] using readUpTo_append split3

/-- `$` stands at the very end of a stripped line. -/
theorem trimmed_stop {line a rest : Str} (split : strip line = a ++ rest) (ended : rest = [] ∨ rest = ['\n']) :
    rest = [] := by
  cases ended with
  | inl none => exact none
  | inr lineBreak =>
      have last : '\n' ∈ (strip line).getLast? := by simp [split, lineBreak]
      exact absurd (strip_last '\n' last) (by decide)

/-- A heading has a text, since the line it is read from ends in a solid character. -/
theorem headingOf_sound {line text : Str} {depth : Nat} (isHeading : headingOf line = some (depth, text)) :
    1 ≤ depth ∧ strip text ≠ [] ∧ strip text <:+: strip line := by
  rw [headingOf, Option.map_eq_some_iff] at isHeading
  obtain ⟨found, isMatch, same⟩ := isHeading
  obtain ⟨marks, gap, word, rest, split, someMarks, -, someGap, blank, ended, depthEq, textEq⟩ :=
    heading_sound isMatch
  obtain ⟨rfl, rfl⟩ : (found.group 1).length = depth ∧ found.group 2 = text := Prod.mk.inj same
  obtain rfl := trimmed_stop (show strip line = (marks ++ (gap ++ word)) ++ rest by simp [split]) ended
  rw [depthEq, textEq]
  refine ⟨List.length_pos_iff.mpr someMarks, ?_, ?_⟩
  · intro blankWord
    have tail : Blank (gap ++ word) := by
      intro c member
      cases List.mem_append.mp member with
      | inl inGap => exact blank c inGap
      | inr inWord => exact strip_eq_nil.mp blankWord c inWord
    have someTail : gap ++ word ≠ [] := by simp [someGap]
    have last : (gap ++ word).getLast someTail ∈ (strip line).getLast? := by
      rw [split, List.append_nil, List.getLast?_append_of_ne_nil _ someTail]
      exact List.getLast?_eq_some_getLast someTail
    have solid := strip_last _ last
    rw [tail _ (List.getLast_mem someTail)] at solid
    exact absurd solid (by simp)
  · refine (strip_isInfix word).trans ⟨marks ++ gap, [], ?_⟩
    rw [split]
    simp

theorem takeWhile_marks {marks gap : Str} (hashes : ∀ c ∈ marks, c = '#') (someGap : gap ≠ [])
    (blank : Blank gap) (t : Str) : (marks ++ (gap ++ t)).takeWhile (· == '#') = marks := by
  cases gap with
  | nil => exact absurd rfl someGap
  | cons g gap =>
      have other : (g == '#') = false := by
        have space := blank g List.mem_cons_self
        cases same : g == '#' with
        | false => rfl
        | true => exact absurd space (beq_iff_eq.mp same ▸ by decide)
      rw [List.takeWhile_append_of_pos (by simpa using hashes), List.cons_append,
        List.takeWhile_cons_of_neg (by simp [other]), List.append_nil]

/-- One to six marks, a gap and a text make a heading. -/
theorem headingOf_complete {line gap text : Str} {depth : Nat}
    (split : strip line = List.replicate depth '#' ++ (gap ++ text)) (positive : 1 ≤ depth) (shallow : depth ≤ 6)
    (someGap : gap ≠ []) (blank : Blank gap) (single : '\n' ∉ text) :
    ∃ raw, headingOf line = some (depth, raw) ∧ strip raw = strip text := by
  have hashes : ∀ c ∈ List.replicate depth '#', (c == '#') = true := by
    intro c member
    simp [List.eq_of_mem_replicate member]
  have inLine : ∀ c ∈ text, (c != '\n') = true := by
    intro c member
    simp only [bne_iff_ne, ne_eq]
    rintro rfl
    exact single member
  have possible : heading.matchAt [] (strip line) ≠ none := by
    intro none
    apply Pattern.matchAt_eq_none.mp none
    rw [split]
    exact ⟨_, ⟨rfl, rfl⟩, _,
      ⟨_, bounded_matches (by simpa using positive) (by simpa using shallow) hashes, rfl⟩, _,
      matches_many.mpr ⟨gap, text, rfl, List.length_pos_iff.mpr someGap, blank, rfl⟩, _,
      ⟨_, matches_many.mpr ⟨text, [], (List.append_nil text).symm, Nat.zero_le _, inLine, rfl⟩, rfl⟩, _,
      ⟨.inl rfl, rfl⟩, rfl⟩
  obtain ⟨found, isMatch⟩ := Option.ne_none_iff_exists'.mp possible
  obtain ⟨marks, gap', raw, rest, split', -, hashes', someGap', blank', ended, depthEq, textEq⟩ :=
    heading_sound isMatch
  obtain rfl := trimmed_stop (show strip line = (marks ++ (gap' ++ raw)) ++ rest by simp [split']) ended
  have same : List.replicate depth '#' = marks := by
    rw [← takeWhile_marks (fun c member => List.eq_of_mem_replicate member) someGap blank text, ← split, split',
      takeWhile_marks hashes' someGap' blank']
  subst same
  have tail : gap ++ text = gap' ++ raw := by
    rw [split, List.append_nil] at split'
    exact List.append_cancel_left split'
  refine ⟨raw, ?_, ?_⟩
  · rw [headingOf, isMatch, Option.map_some, depthEq, textEq, List.length_replicate]
  · rw [← strip_blank_append blank' raw, ← tail, strip_blank_append blank]

/-- The depth and the text of a line that closes a section. -/
def boundary (line : Str) : Option (Nat × Str) :=
  ((headingOf line).filter fun h => h.1 ≤ 3).map fun h => (h.1, strip h.2)

theorem boundary_sound {line text : Str} {depth : Nat} (closes : boundary line = some (depth, text)) :
    1 ≤ depth ∧ depth ≤ 3 ∧ text ≠ [] ∧ text <:+: strip line := by
  simp only [boundary, Option.map_eq_some_iff, Option.filter_eq_some_iff] at closes
  obtain ⟨⟨d, raw⟩, ⟨isHeading, shallow⟩, same⟩ := closes
  obtain ⟨rfl, rfl⟩ := Prod.mk.inj same
  obtain ⟨positive, hasText, inLine⟩ := headingOf_sound isHeading
  exact ⟨positive, by simpa using shallow, hasText, inLine⟩

theorem boundary_strip (line : Str) : boundary (strip line) = boundary line := by
  simp only [boundary, headingOf, strip_strip]

theorem boundary_blank {line : Str} (blank : strip line = []) : boundary line = none := by
  cases closes : boundary line with
  | none => rfl
  | some found =>
      obtain ⟨depth, text⟩ := found
      obtain ⟨-, -, hasText, inLine⟩ := boundary_sound closes
      rw [blank] at inLine
      exact absurd (List.eq_nil_of_infix_nil inLine) hasText

theorem boundary_complete {line gap text : Str} {depth : Nat}
    (split : strip line = List.replicate depth '#' ++ (gap ++ text)) (positive : 1 ≤ depth) (shallow : depth ≤ 6)
    (someGap : gap ≠ []) (blank : Blank gap) (single : '\n' ∉ text) :
    boundary line = if depth ≤ 3 then some (depth, strip text) else none := by
  obtain ⟨raw, isHeading, same⟩ := headingOf_complete split positive shallow someGap blank single
  rw [boundary, isHeading, ← same]
  split <;> simp_all [Option.filter]

namespace Splitter

theorem readLine_body {line : Str} (body : boundary line = none) (s : Splitter) :
    s.readLine line = { s with buffer := s.buffer ++ [line] } := by
  simp only [boundary, Option.map_eq_none_iff, Option.filter_eq_none_iff] at body
  simp only [readLine]
  cases isHeading : headingOf line with
  | none => rfl
  | some found =>
      obtain ⟨depth, text⟩ := found
      have deep := body (depth, text) isHeading
      have positive := (headingOf_sound isHeading).1
      simp only [decide_eq_true_eq] at deep positive ⊢
      rw [if_neg (by omega), if_neg (by omega)]

theorem readLine_boundary {line text : Str} {depth : Nat} (closes : boundary line = some (depth, text))
    (s : Splitter) :
    s.readLine line =
      { s.flush with
        buffer := []
        heading := if depth = 1 then none else some text
        level := if depth = 1 then 0 else depth } := by
  have positive := (boundary_sound closes).1
  simp only [boundary, Option.map_eq_some_iff, Option.filter_eq_some_iff] at closes
  obtain ⟨⟨d, raw⟩, ⟨isHeading, shallow⟩, same⟩ := closes
  obtain ⟨rfl, rfl⟩ := Prod.mk.inj same
  simp only [decide_eq_true_eq] at shallow
  simp only [readLine, isHeading]
  by_cases top : d = 1
  · simp [top]
  · rw [if_neg top, if_pos (by omega : d = 2 ∨ d = 3), if_neg top, if_neg top]

end Splitter

/-- The section that is open, when it is closed. -/
def closed (heading : Option Str) (level : Nat) (buffer : List Str) : List Section :=
  let body := strip (join ['\n'] buffer)
  if body ≠ [] ∨ truthy heading then [{ heading, level, body }] else []

def sectionsFrom (heading : Option Str) (level : Nat) (buffer : List Str) : List Str → List Section
  | [] => closed heading level buffer
  | line :: rest =>
      match boundary line with
      | none => sectionsFrom heading level (buffer ++ [line]) rest
      | some (depth, text) =>
          closed heading level buffer ++
            sectionsFrom (if depth = 1 then none else some text) (if depth = 1 then 0 else depth) [] rest

theorem flush_sections (s : Splitter) :
    s.flush.sections = s.sections ++ closed s.heading s.level s.buffer := by
  simp only [Splitter.flush, closed]
  split <;> simp

theorem readLines_sections (ls : List Str) (s : Splitter) :
    (ls.foldl Splitter.readLine s).flush.sections =
      s.sections ++ sectionsFrom s.heading s.level s.buffer ls := by
  induction ls generalizing s with
  | nil => exact flush_sections s
  | cons line rest ih =>
      rw [List.foldl_cons, ih, sectionsFrom]
      cases closes : boundary line with
      | none => rw [Splitter.readLine_body closes]
      | some found =>
          obtain ⟨depth, text⟩ := found
          rw [Splitter.readLine_boundary closes]
          simp only [flush_sections, List.append_assoc]

/-- What is true of every closed section is true of all sections. -/
theorem forall_sectionsFrom {P : Section → Prop} {N : Option Str → Prop}
    (here : ∀ heading level buffer, N heading → ∀ s ∈ closed heading level buffer, P s)
    (unnamed : N none) {ls : List Str}
    (name : ∀ line ∈ ls, ∀ depth text, boundary line = some (depth, text) → N (some text))
    {heading : Option Str} {level : Nat} {buffer : List Str} (first : N heading) :
    ∀ s ∈ sectionsFrom heading level buffer ls, P s := by
  induction ls generalizing heading level buffer with
  | nil => exact here heading level buffer first
  | cons line rest ih =>
      have later := fun l member => name l (List.mem_cons_of_mem line member)
      rw [sectionsFrom]
      cases closes : boundary line with
      | none => exact ih later first
      | some found =>
          intro s member
          cases List.mem_append.mp member with
          | inl closing => exact here _ _ _ first s closing
          | inr after =>
              refine ih later ?_ s after
              split
              · exact unnamed
              · exact name line List.mem_cons_self found.1 found.2 closes

/-- A section is stripped, is not empty, and its heading is a single line with a text. -/
structure WellFormed (s : Section) : Prop where
  trimmed : strip s.body = s.body
  kept : s.body ≠ [] ∨ truthy s.heading = true
  named : ∀ name ∈ s.heading, name ≠ [] ∧ '\n' ∉ name

theorem sectionsFrom_wellFormed {ls : List Str} (single : ∀ line ∈ ls, '\n' ∉ line) :
    ∀ s ∈ sectionsFrom none 0 [] ls, WellFormed s := by
  have unnamed : ∀ name ∈ (none : Option Str), name ≠ [] ∧ '\n' ∉ name := by simp
  refine forall_sectionsFrom (N := fun heading => ∀ name ∈ heading, name ≠ [] ∧ '\n' ∉ name)
    ?_ unnamed ?_ unnamed
  · intro heading level buffer named s member
    simp only [closed] at member
    split at member
    · rename_i kept
      obtain rfl := List.mem_singleton.mp member
      exact ⟨strip_strip _, kept, named⟩
    · exact absurd member (by simp)
  · intro line member depth text closes name same
    obtain rfl := Option.some.inj same
    obtain ⟨-, -, hasText, inLine⟩ := boundary_sound closes
    exact ⟨hasText, fun lineBreak =>
      single line member ((inLine.trans (strip_isInfix line)).subset lineBreak)⟩

theorem splitSections_eq (text : Str) : splitSections text = sectionsFrom none 0 [] (lines text) := by
  rw [splitSections, readLines_sections, List.nil_append, List.filter_eq_self]
  intro s member
  exact decide_eq_true (sectionsFrom_wellFormed (fun _ => lines_single) s member).kept

theorem splitSections_wellFormed {text : Str} {s : Section} (member : s ∈ splitSections text) :
    WellFormed s :=
  sectionsFrom_wellFormed (fun _ => lines_single) s (splitSections_eq text ▸ member)

end Nipoto.Chunking
