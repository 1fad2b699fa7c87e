import Nipoto.General.Divisions
import Nipoto.Retrieval.Outline

/-! # Groups of lines

`splitSections` groups the lines of a text by its h1, h2 and h3 lines. What is a
boundary, and what a group becomes, is stated here without the scan.
-/

namespace Nipoto.Chunking

open Text Divisions

/-- One to three marks, white space and a text. -/
structure IsBoundary (line : Str) (mark : Nat × Str) : Prop where
  positive : 1 ≤ mark.1
  shallow : mark.1 ≤ 3
  worded : mark.2 ≠ []
  trimmed : strip mark.2 = mark.2
  spelled : ∃ gap, gap ≠ [] ∧ Blank gap ∧ strip line = List.replicate mark.1 '#' ++ (gap ++ mark.2)

/-- What becomes of a group of lines under its boundary. -/
def groupSection : Option (Nat × Str) → List Str → Option Section
  | some (2, text), ls => some { heading := text, level := 2, body := strip (join ['\n'] ls) }
  | some (3, text), ls => some { heading := text, level := 3, body := strip (join ['\n'] ls) }
  | _, ls =>
      if strip (join ['\n'] ls) = [] then none
      else some { heading := none, level := 0, body := strip (join ['\n'] ls) }

def groupSections {ls : List Str} (division : Division IsBoundary ls) : List Section :=
  (groupSection none division.first).toList ++
    division.portions.flatMap fun p => (groupSection (some p.mark) p.rest).toList

theorem isBoundary_of_boundary {line : Str} {mark : Nat × Str} (closes : boundary line = some mark) :
    IsBoundary line mark := by
  obtain ⟨depth, text⟩ := mark
  obtain ⟨positive, shallow, worded, -⟩ := boundary_sound closes
  simp only [boundary, headingOf, Option.map_eq_some_iff, Option.filter_eq_some_iff] at closes
  obtain ⟨_, ⟨⟨found, isMatch, rfl⟩, -⟩, same⟩ := closes
  obtain ⟨marks, gap, raw, rest, split, -, hashes, someGap, blank, ended, depthEq, textEq⟩ :=
    heading_sound isMatch
  obtain ⟨rfl, rfl⟩ : (found.group 1).length = depth ∧ strip (found.group 2) = text := Prod.mk.inj same
  obtain rfl := trimmed_stop (show strip line = (marks ++ (gap ++ raw)) ++ rest by simp [split]) ended
  rw [textEq] at worded
  -- The text ends where the stripped line ends.
  have someRaw : raw ≠ [] := by rintro rfl; exact worded rfl
  have last : ∀ c ∈ (lstrip raw).getLast?, isSpace c = false := by
    intro c atEnd
    apply strip_last (s := line) c
    have someLeft : lstrip raw ≠ [] := by rintro gone; simp [gone] at atEnd
    obtain ⟨lead, whole⟩ := lstrip_suffix raw
    rw [split, List.append_nil, ← whole, ← List.append_assoc, ← List.append_assoc,
      List.getLast?_append_of_ne_nil _ someLeft]
    exact atEnd
  have same : strip raw = lstrip raw := rstrip_of_solid_end last
  refine ⟨positive, shallow, textEq ▸ worded, by rw [textEq, strip_strip],
    gap ++ raw.takeWhile isSpace, by simp [someGap], ?_, ?_⟩
  · intro c member
    cases List.mem_append.mp member with
    | inl inGap => exact blank c inGap
    | inr inLead => exact List.mem_takeWhile_imp inLead
  · have marked : marks = List.replicate marks.length '#' := List.eq_replicate_of_mem hashes
    have whole : raw = raw.takeWhile isSpace ++ lstrip raw := (List.takeWhile_append_dropWhile).symm
    rw [textEq, depthEq, same, ← marked, split, List.append_nil, List.append_assoc, ← whole]

theorem boundary_of_isBoundary {line : Str} {mark : Nat × Str} (single : '\n' ∉ line)
    (isMark : IsBoundary line mark) : boundary line = some mark := by
  obtain ⟨depth, text⟩ := mark
  obtain ⟨positive, shallow, worded, trimmed, gap, someGap, blank, split⟩ := isMark
  have inLine : '\n' ∉ text := by
    intro lineBreak
    apply single
    apply (strip_isInfix line).subset
    rw [split]
    simp [lineBreak]
  have deep : depth ≤ 6 := Nat.le_trans shallow (by decide)
  rw [boundary_complete split positive deep someGap blank inLine, if_pos shallow, trimmed]

/-- What the scan takes for a boundary is one, and every boundary is taken. -/
theorem boundary_of_plain {line : Str} (plain : ∀ mark, ¬ IsBoundary line mark) : boundary line = none := by
  cases closes : boundary line with
  | none => rfl
  | some mark => exact absurd (isBoundary_of_boundary closes) (plain mark)

theorem sectionsFrom_plain {ls : List Str} (plain : ∀ line ∈ ls, boundary line = none)
    (heading : Option Str) (level : Nat) (buffer rest : List Str) :
    sectionsFrom heading level buffer (ls ++ rest) = sectionsFrom heading level (buffer ++ ls) rest := by
  induction ls generalizing buffer with
  | nil => simp
  | cons line ls ih =>
      rw [List.cons_append, sectionsFrom, plain line List.mem_cons_self]
      simp only
      rw [ih fun l member => plain l (List.mem_cons_of_mem line member)]
      simp

/-- The sections of a part stand behind those of the open section. -/
theorem closed_group (depth : Nat) (text : Str) (positive : 1 ≤ depth) (shallow : depth ≤ 3) (worded : text ≠ [])
    (ls : List Str) :
    closed (if depth = 1 then none else some text) (if depth = 1 then 0 else depth) ls =
      (groupSection (some (depth, text)) ls).toList := by
  obtain rfl | rfl | rfl : depth = 1 ∨ depth = 2 ∨ depth = 3 := by omega
  · simp only [closed, groupSection, truthy, if_pos]
    split <;> simp_all
  · simp [closed, groupSection, truthy, worded]
  · simp [closed, groupSection, truthy, worded]

theorem closed_first (ls : List Str) : closed none 0 ls = (groupSection none ls).toList := by
  by_cases blank : strip (join ['\n'] ls) = [] <;> simp [closed, groupSection, truthy, blank]

theorem sectionsFrom_portions (portions : List (Portion IsBoundary))
    (single : ∀ p ∈ portions, '\n' ∉ p.item) (heading : Option Str) (level : Nat) (buffer : List Str) :
    sectionsFrom heading level buffer (portions.flatMap fun p => p.item :: p.rest) =
      closed heading level buffer ++ portions.flatMap fun p => (groupSection (some p.mark) p.rest).toList := by
  induction portions generalizing heading level buffer with
  | nil => simp [sectionsFrom]
  | cons p portions ih =>
      obtain ⟨line, ⟨depth, text⟩, rest, marked, plain⟩ := p
      have closes := boundary_of_isBoundary (single _ List.mem_cons_self) marked
      have body := fun l member => boundary_of_plain (plain l member)
      rw [List.flatMap_cons, List.flatMap_cons, List.cons_append, sectionsFrom, closes]
      simp only
      rw [sectionsFrom_plain body, List.nil_append, ih fun q member => single q (List.mem_cons_of_mem _ member),
        closed_group depth text marked.positive marked.shallow marked.worded]

theorem splitSections_division {text : Str} (division : Division IsBoundary (lines text)) :
    splitSections text = groupSections division := by
  have single : ∀ p ∈ division.portions, '\n' ∉ p.item := by
    intro p member
    apply lines_single (t := text)
    rw [division.whole]
    exact List.mem_append_right _ (List.mem_flatMap.mpr ⟨p, member, List.mem_cons_self⟩)
  have whole := sectionsFrom_plain (fun l member => boundary_of_plain (division.plain l member)) none 0 []
    (division.portions.flatMap fun p => p.item :: p.rest)
  rw [splitSections_eq, congrArg (sectionsFrom none 0 []) division.whole, whole, sectionsFrom_portions _ single,
    List.nil_append, closed_first, groupSections]

theorem contentOf_append (a b : List Str) : contentOf (a ++ b) = contentOf a ++ contentOf b := by
  simp [contentOf]

theorem contentOf_flatMap {γ : Type} (items : List γ) (f : γ → List Str) :
    contentOf (items.flatMap f) = items.flatMap fun item => contentOf (f item) := by
  induction items with
  | nil => rfl
  | cons item items ih => rw [List.flatMap_cons, contentOf_append, ih, List.flatMap_cons]

/-- A group loses no line with content: one that is left out is blank. -/
theorem groupSection_content (mark : Option (Nat × Str)) {ls : List Str} (single : ∀ l ∈ ls, '\n' ∉ l) :
    (groupSection mark ls).toList.flatMap (fun s => content s.body) = contentOf ls := by
  have body : content (strip (join ['\n'] ls)) = contentOf ls := by
    rw [content_strip, content_join single, contentOf]
  have empty : strip (join ['\n'] ls) = [] → contentOf ls = [] := by
    intro gone
    rw [← body, gone, content_nil]
  unfold groupSection
  split
  · simp [body]
  · simp [body]
  · split
    · rename_i gone
      simp [empty gone]
    · simp [body]

theorem groupSections_content {text : Str} (division : Division IsBoundary (lines text)) :
    (groupSections division).flatMap (fun s => content s.body) = contentOf division.plainItems := by
  have single : ∀ l, l ∈ division.first ∨ (∃ p ∈ division.portions, l ∈ p.rest) → '\n' ∉ l := by
    intro l where_
    apply lines_single (t := text)
    rw [division.whole]
    cases where_ with
    | inl first => exact List.mem_append_left _ first
    | inr later =>
        obtain ⟨p, member, inPart⟩ := later
        exact List.mem_append_right _ (List.mem_flatMap.mpr ⟨p, member, List.mem_cons_of_mem _ inPart⟩)
  have portions : (division.portions.flatMap fun p => (groupSection (some p.mark) p.rest).toList).flatMap
      (fun s => content s.body) = division.portions.flatMap fun p => contentOf p.rest := by
    rw [List.flatMap_assoc]
    apply List.flatMap_congr
    intro p member
    exact groupSection_content _ fun l inPart => single l (.inr ⟨p, member, inPart⟩)
  rw [groupSections, List.flatMap_append, groupSection_content _ fun l first => single l (.inl first), portions,
    Division.plainItems, contentOf_append, contentOf_flatMap]

theorem body_plain {text : Str} {s : Section} (member : s ∈ splitSections text) {line : Str}
    (inBody : line ∈ lines s.body) : boundary line = none := by
  have inOutline : s.group ∈ outline none [] (content text) :=
    splitSections_outline text ▸ List.mem_map_of_mem member
  have plain := outline_body (by simp) s.group inOutline
  by_cases blank : strip line = []
  · exact boundary_blank blank
  · have inContent : strip line ∈ content s.body := by
      simpa [content, blank] using ⟨line, inBody, rfl⟩
    exact (boundary_strip line).symm.trans (plain _ inContent)

open scoped Classical in
/-- The sections are the groups of any division at the boundaries, and there is one; the bodies
    hold the other lines in order and no boundary. -/
theorem splitSections_groups (text : Str) :
    Nonempty (Division IsBoundary (lines text)) ∧
      (∀ division : Division IsBoundary (lines text), splitSections text = groupSections division) ∧
      (splitSections text).flatMap (fun s => content s.body) =
        contentOf ((lines text).filter fun line => ¬ ∃ mark, IsBoundary line mark) ∧
      ∀ s ∈ splitSections text, ∀ line ∈ lines s.body, ∀ mark, ¬ IsBoundary line mark := by
  obtain ⟨division⟩ := exists_division IsBoundary (lines text)
  refine ⟨⟨division⟩, splitSections_division, ?_, ?_⟩
  · rw [splitSections_division division, groupSections_content division, division.plainItems_eq]
  · intro s member line inBody mark isMark
    have closes := boundary_of_isBoundary (lines_single inBody) isMark
    rw [body_plain member inBody] at closes
    exact absurd closes (by simp)

end Nipoto.Chunking
