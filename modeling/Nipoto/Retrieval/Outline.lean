import Nipoto.Retrieval.ChunkContent
import Nipoto.Retrieval.Tidy

/-! # The outline of a text

The sections of a text, each with its heading and the content of its body, read
off the content of the text alone.
-/

namespace Nipoto.Chunking

open Text Text.Regex Clean

/-- A heading and the lines under it. -/
abbrev Group := Option Str × List Str

/-- The group that is open, if it is kept. -/
def kept (heading : Option Str) (body : List Str) : List Group :=
  if body ≠ [] ∨ truthy heading then [(heading, body)] else []

def outline (heading : Option Str) (body : List Str) : List Str → List Group
  | [] => kept heading body
  | line :: rest =>
      match boundary line with
      | none => outline heading (body ++ [line]) rest
      | some (depth, text) =>
          kept heading body ++ outline (if depth = 1 then none else some text) [] rest

def Section.group (s : Section) : Group := (s.heading, content s.body)

theorem closed_groups (heading : Option Str) (level : Nat) {buffer : List Str}
    (single : ∀ line ∈ buffer, '\n' ∉ line) :
    (closed heading level buffer).map Section.group = kept heading (contentOf buffer) := by
  have body : content (strip (join ['\n'] buffer)) = contentOf buffer := by
    rw [content_strip, content_join single, contentOf]
  have empty : strip (join ['\n'] buffer) = [] ↔ contentOf buffer = [] := by
    rw [← body, content_strip, content_eq_nil, strip_eq_nil]
  simp only [closed, kept, ne_eq, empty]
  split <;> simp [Section.group, body]

theorem sectionsFrom_outline {ls : List Str} (single : ∀ line ∈ ls, '\n' ∉ line) (heading : Option Str)
    (level : Nat) {buffer : List Str} (bufferSingle : ∀ line ∈ buffer, '\n' ∉ line) :
    (sectionsFrom heading level buffer ls).map Section.group =
      outline heading (contentOf buffer) (contentOf ls) := by
  induction ls generalizing heading level buffer with
  | nil => exact closed_groups heading level bufferSingle
  | cons line rest ih =>
      have restSingle := fun l member => single l (List.mem_cons_of_mem line member)
      rw [sectionsFrom]
      cases closes : boundary line with
      | none =>
          have longer : ∀ l ∈ buffer ++ [line], '\n' ∉ l := by
            intro l member
            cases List.mem_append.mp member with
            | inl earlier => exact bufferSingle l earlier
            | inr last => exact List.mem_singleton.mp last ▸ single line List.mem_cons_self
          simp only [ih restSingle heading level longer]
          by_cases blank : strip line = []
          · simp [contentOf, blank]
          · simp [contentOf, blank, outline, boundary_strip, closes]
      | some found =>
          obtain ⟨depth, text⟩ := found
          have solid : strip line ≠ [] := fun blank => by simp [boundary_blank blank] at closes
          have split : contentOf (line :: rest) = strip line :: contentOf rest := by simp [contentOf, solid]
          have nothing : ∀ l ∈ ([] : List Str), '\n' ∉ l := by simp
          simp only [List.map_append, closed_groups heading level bufferSingle, split, outline, boundary_strip,
            closes, ih restSingle _ _ nothing, contentOf_nil]

/-- The sections of a text are the outline of its content. -/
theorem splitSections_outline (text : Str) :
    (splitSections text).map Section.group = outline none [] (content text) := by
  rw [splitSections_eq, sectionsFrom_outline (fun _ => lines_single) none 0 (by simp)]
  rfl

theorem mem_kept {heading : Option Str} {body : List Str} {g : Group} (member : g ∈ kept heading body) :
    g = (heading, body) := by
  simp only [kept] at member
  split at member
  · exact List.mem_singleton.mp member
  · exact absurd member List.not_mem_nil

/-- No line under a heading is itself a heading line. -/
theorem outline_body {ls body : List Str} (plain : ∀ line ∈ body, boundary line = none) {heading : Option Str} :
    ∀ g ∈ outline heading body ls, ∀ line ∈ g.2, boundary line = none := by
  induction ls generalizing heading body with
  | nil =>
      intro g member
      rw [mem_kept member]
      exact plain
  | cons line rest ih =>
      rw [outline]
      cases closes : boundary line with
      | none =>
          apply ih
          intro l member
          cases List.mem_append.mp member with
          | inl earlier => exact plain l earlier
          | inr last => exact List.mem_singleton.mp last ▸ closes
      | some found =>
          intro g member
          cases List.mem_append.mp member with
          | inl here =>
              rw [mem_kept here]
              exact plain
          | inr later => exact ih (by simp) g later

/-- The texts of the h2 and h3 lines. -/
def headingText (line : Str) : Option Str :=
  (boundary line).bind fun found => if found.1 = 1 then none else some found.2

theorem kept_headings {heading : Option Str} (named : ∀ name ∈ heading, name ≠ []) (body : List Str) :
    (kept heading body).filterMap Prod.fst = heading.toList := by
  cases heading with
  | none => cases body <;> simp [kept, truthy]
  | some name => simp [kept, truthy, named name rfl]

theorem outline_headings {heading : Option Str} (named : ∀ name ∈ heading, name ≠ []) (body ls : List Str) :
    (outline heading body ls).filterMap Prod.fst = heading.toList ++ ls.filterMap headingText := by
  induction ls generalizing heading body with
  | nil => simpa [outline] using kept_headings named body
  | cons line rest ih =>
      rw [outline]
      cases closes : boundary line with
      | none => simpa [headingText, closes] using ih named (body ++ [line])
      | some found =>
          obtain ⟨depth, text⟩ := found
          have hasText : ∀ name ∈ if depth = 1 then none else some text, name ≠ [] := by
            intro name same
            split at same
            · exact absurd same (by simp)
            · exact Option.some.inj same ▸ (boundary_sound closes).2.2.1
          rw [List.filterMap_append, kept_headings named, ih hasText, List.filterMap_cons]
          by_cases top : depth = 1 <;> simp [headingText, closes, top]

theorem headingText_strip (line : Str) : headingText (strip line) = headingText line := by
  rw [headingText, boundary_strip, headingText]

theorem headingText_blank {line : Str} (blank : strip line = []) : headingText line = none := by
  rw [headingText, boundary_blank blank]
  rfl

theorem content_headings (text : Str) :
    (content text).filterMap headingText = (lines text).filterMap headingText := by
  rw [content]
  induction lines text with
  | nil => rfl
  | cons line rest ih =>
      by_cases blank : strip line = []
      · simpa [blank, headingText_blank blank] using ih
      · cases found : headingText line <;> simpa [blank, headingText_strip, found] using ih

/-- The headings of the sections are the texts of the h2 and h3 lines. -/
theorem splitSections_headings (text : Str) :
    (splitSections text).filterMap Section.heading = (content text).filterMap headingText := by
  have groups := congrArg (List.filterMap Prod.fst) (splitSections_outline text)
  rw [List.filterMap_map, outline_headings (by simp)] at groups
  exact groups

/-- What stands in a filtered list, in order, stands for items of the list, in order. -/
theorem sublist_filterMap {α β : Type} {f : α → Option β} {found : List β} {items : List α} :
    found.Sublist (items.filterMap f) ↔ List.SublistForall₂ (fun b a => f a = some b) found items := by
  constructor
  · intro sub
    induction items generalizing found with
    | nil =>
        obtain rfl := List.sublist_nil.mp sub
        exact .nil
    | cons a items ih =>
        cases kept : f a with
        | none =>
            rw [List.filterMap_cons_none kept] at sub
            exact .cons_right (ih sub)
        | some b =>
            rw [List.filterMap_cons_some kept] at sub
            cases sub with
            | cons _ later => exact .cons_right (ih later)
            | cons_cons _ later => exact .cons kept (ih later)
  · intro related
    induction related with
    | nil => exact List.nil_sublist _
    | cons here _ ih =>
        rw [List.filterMap_cons_some here]
        exact ih.cons_cons _
    | cons_right _ ih =>
        rename_i a _ _ _
        cases kept : f a with
        | none => rwa [List.filterMap_cons_none kept]
        | some b =>
            rw [List.filterMap_cons_some kept]
            exact ih.cons b

end Nipoto.Chunking
