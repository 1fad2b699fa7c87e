import Nipoto.Text.Str

/-! # Trimming every line of a text

What `"\n".join(line.strip() for line in text.split("\n"))` does, character by
character. White space next to a line break or an end goes, everything else
stays, so the result can be read off the white space between two solid
characters.
-/

namespace Nipoto.Text

theorem lines_break (t : Str) : lines ('\n' :: t) = [] :: lines t := by
  simp [lines, List.splitOn_cons_eq_if_modifyHead]

theorem lines_cons {c : Char} (inLine : c ≠ '\n') (t : Str) :
    lines (c :: t) = (lines t).modifyHead (c :: ·) := by
  simp [lines, List.splitOn_cons_eq_if_modifyHead, inLine]

theorem lines_eq (t : Str) : ∃ rest, lines t = firstLine t :: rest := by
  induction t with
  | nil => exact ⟨[], rfl⟩
  | cons c t ih =>
      obtain ⟨rest, split⟩ := ih
      by_cases atBreak : c = '\n'
      · subst atBreak
        exact ⟨lines t, by rw [lines_break]; simp [firstLine]⟩
      · refine ⟨rest, ?_⟩
        rw [lines_cons atBreak, split]
        simp [firstLine, atBreak]

theorem lines_single {t line : Str} (member : line ∈ lines t) : '\n' ∉ line := by
  induction t generalizing line with
  | nil =>
      obtain rfl := List.mem_singleton.mp member
      simp
  | cons c t ih =>
      by_cases atBreak : c = '\n'
      · subst atBreak
        rw [lines_break] at member
        cases List.mem_cons.mp member with
        | inl first => simp [first]
        | inr later => exact ih later
      · obtain ⟨rest, split⟩ := lines_eq t
        rw [lines_cons atBreak, split, List.modifyHead_cons] at member
        cases List.mem_cons.mp member with
        | inl first =>
            have inLine := ih (split ▸ List.mem_cons_self)
            simp [first, Ne.symm atBreak, inLine]
        | inr later => exact ih (split ▸ List.mem_cons_of_mem _ later)

theorem join_break (ls : List Str) (some : ls ≠ []) : join ['\n'] ([] :: ls) = '\n' :: join ['\n'] ls := by
  simp [join, List.intercalate_cons_of_ne_nil some]

theorem join_cons (c : Char) (l : Str) (ls : List Str) :
    join ['\n'] ((c :: l) :: ls) = c :: join ['\n'] (l :: ls) := by
  simp [join, List.intercalate_cons_cons_left]

theorem join_lines (t : Str) : join ['\n'] (lines t) = t := List.intercalate_splitOn '\n'

theorem rstrip_cons (c : Char) (s : Str) :
    rstrip (c :: s) = if rstrip s = [] ∧ isSpace c = true then [] else c :: rstrip s := by
  simp only [rstrip, List.rdropWhile, List.reverse_cons, List.dropWhile_append, List.reverse_eq_nil_iff]
  cases gone : s.reverse.dropWhile isSpace with
  | nil => cases space : isSpace c <;> simp [space]
  | cons d t => simp

theorem strip_space {c : Char} (space : isSpace c = true) (s : Str) : strip (c :: s) = strip s := by
  simp [strip, lstrip, space]

theorem strip_solid {c : Char} (solid : isSpace c = false) (s : Str) : strip (c :: s) = c :: rstrip s := by
  simp [strip, lstrip, solid, rstrip_cons]

theorem strip_blank_append {a : Str} (blank : Blank a) (s : Str) : strip (a ++ s) = strip s := by
  rw [strip, lstrip, List.dropWhile_append_of_pos blank, strip, lstrip]

theorem rstrip_append_blank (s : Str) {b : Str} (blank : Blank b) : rstrip (s ++ b) = rstrip s := by
  induction s with
  | nil => exact rstrip_eq_nil.mpr blank
  | cons c s ih => rw [List.cons_append, rstrip_cons, rstrip_cons, ih]

theorem rstrip_of_solid_end {s : Str} (last : ∀ c ∈ s.getLast?, isSpace c = false) : rstrip s = s := by
  rw [rstrip, List.rdropWhile_eq_self_iff]
  intro nonempty
  simp [last _ (List.getLast?_eq_some_getLast nonempty)]

theorem strip_rstrip (s : Str) : strip (rstrip s) = strip s := by
  induction s with
  | nil => rfl
  | cons c s ih =>
      rw [rstrip_cons]
      cases space : isSpace c with
      | false => simp [strip_solid space, rstrip, List.rdropWhile_idempotent]
      | true =>
          by_cases blank : rstrip s = []
          · rw [if_pos ⟨blank, rfl⟩, strip_space space, strip_eq_nil.mpr (rstrip_eq_nil.mp blank)]
            rfl
          · rw [if_neg (by simp [blank]), strip_space space, strip_space space, ih]

def trimLines (t : Str) : Str := join ['\n'] ((lines t).map strip)

/-- The same where the first line began before `t`, with a solid character. -/
def trimRest (t : Str) : Str :=
  join ['\n'] (rstrip (firstLine t) :: ((lines t).tail.map strip))

theorem trimLines_break (t : Str) : trimLines ('\n' :: t) = '\n' :: trimLines t := by
  rw [trimLines, lines_break, List.map_cons, show strip [] = [] from rfl,
    join_break _ (by simp [lines_ne_nil])]
  rfl

theorem trimRest_break (t : Str) : trimRest ('\n' :: t) = '\n' :: trimLines t := by
  rw [trimRest, lines_break, List.tail_cons, show firstLine ('\n' :: t) = [] from rfl,
    show rstrip [] = [] from rfl, join_break _ (by simp [lines_ne_nil])]
  rfl

theorem tail_lines_cons {c : Char} (inLine : c ≠ '\n') (t : Str) :
    (lines (c :: t)).tail = (lines t).tail := by
  obtain ⟨rest, split⟩ := lines_eq t
  rw [lines_cons inLine, split]
  rfl

theorem firstLine_cons {c : Char} (inLine : c ≠ '\n') (t : Str) :
    firstLine (c :: t) = c :: firstLine t := by simp [firstLine, inLine]

theorem trimLines_eq (t : Str) :
    trimLines t = join ['\n'] (strip (firstLine t) :: ((lines t).tail.map strip)) := by
  obtain ⟨rest, split⟩ := lines_eq t
  rw [trimLines, split]
  rfl

theorem trimLines_space {c : Char} (space : isSpace c = true) (inLine : c ≠ '\n') (t : Str) :
    trimLines (c :: t) = trimLines t := by
  rw [trimLines_eq, trimLines_eq, tail_lines_cons inLine, firstLine_cons inLine, strip_space space]

theorem trimLines_solid {c : Char} (solid : isSpace c = false) (t : Str) :
    trimLines (c :: t) = c :: trimRest t := by
  have inLine : c ≠ '\n' := by rintro rfl; exact absurd solid (by decide)
  rw [trimLines_eq, trimRest, tail_lines_cons inLine, firstLine_cons inLine, strip_solid solid, join_cons]

theorem trimRest_solid {c : Char} (solid : isSpace c = false) (t : Str) :
    trimRest (c :: t) = c :: trimRest t := by
  have inLine : c ≠ '\n' := by rintro rfl; exact absurd solid (by decide)
  have kept : rstrip (c :: firstLine t) = c :: rstrip (firstLine t) := by simp [rstrip_cons, solid]
  rw [trimRest, trimRest, tail_lines_cons inLine, firstLine_cons inLine, kept, join_cons]

theorem trimRest_space {c : Char} (space : isSpace c = true) (inLine : c ≠ '\n') (t : Str) :
    trimRest (c :: t) = if Blank (firstLine t) then trimRest t else c :: trimRest t := by
  rw [trimRest, tail_lines_cons inLine, firstLine_cons inLine, rstrip_cons]
  simp only [space, and_true, rstrip_eq_nil]
  split
  · rename_i blank
    rw [trimRest, rstrip_eq_nil.mpr blank]
  · rw [join_cons, trimRest]

def breaks (g : Str) : Str := g.filter (· == '\n')

/-- What trimming leaves of the white space between two solid characters. -/
def trimGap (g : Str) : Str := if '\n' ∈ g then breaks g else g

theorem breaks_break (g : Str) : breaks ('\n' :: g) = '\n' :: breaks g := rfl

theorem breaks_cons {c : Char} (inLine : c ≠ '\n') (g : Str) : breaks (c :: g) = breaks g := by
  simp [breaks, inLine]

theorem breaks_blank (g : Str) : Blank (breaks g) := by
  intro c member
  obtain rfl : c = '\n' := by simpa using (List.mem_filter.mp member).2
  decide

variable {g : Str} {x : Char}

theorem trimLines_gap (blank : Blank g) (solid : isSpace x = false) (t : Str) :
    trimLines (g ++ x :: t) = breaks g ++ x :: trimRest t := by
  induction g with
  | nil => exact trimLines_solid solid t
  | cons c g ih =>
      have tail := ih fun d member => blank d (List.mem_cons_of_mem c member)
      by_cases atBreak : c = '\n'
      · subst atBreak
        rw [List.cons_append, trimLines_break, tail, breaks_break, List.cons_append]
      · rw [List.cons_append, trimLines_space (blank c List.mem_cons_self) atBreak, tail,
          breaks_cons atBreak]

theorem blank_firstLine_gap (blank : Blank g) (solid : isSpace x = false) (t : Str) :
    Blank (firstLine (g ++ x :: t)) ↔ '\n' ∈ g := by
  constructor
  · intro blankLine
    by_contra single
    have run : g ++ [x] <+: firstLine (g ++ x :: t) := by
      have inLine : ∀ c ∈ g ++ [x], (c != '\n') = true := by
        intro c member
        rcases List.mem_append.mp member with inGap | atEnd
        · simp only [bne_iff_ne, ne_eq]
          rintro rfl
          exact single inGap
        · obtain rfl := List.mem_singleton.mp atEnd
          simp only [bne_iff_ne, ne_eq]
          rintro rfl
          exact absurd solid (by decide)
      rw [firstLine, show g ++ x :: t = (g ++ [x]) ++ t by simp, List.takeWhile_append_of_pos inLine]
      exact List.prefix_append _ _
    have space := blankLine x (run.subset (by simp))
    rw [solid] at space
    exact absurd space (by simp)
  · intro member
    have short : (g.takeWhile (· != '\n')).length ≠ g.length := by
      intro whole
      have all := (List.takeWhile_prefix (· != '\n')).eq_of_length whole
      rw [← all] at member
      simpa using List.mem_takeWhile_imp member
    rw [firstLine, List.takeWhile_append, if_neg short]
    exact fun c inLine => blank c ((List.takeWhile_prefix _).subset inLine)

theorem trimRest_gap (blank : Blank g) (solid : isSpace x = false) (t : Str) :
    trimRest (g ++ x :: t) = trimGap g ++ x :: trimRest t := by
  induction g with
  | nil => exact trimRest_solid solid t
  | cons c g ih =>
      have rest : Blank g := fun d member => blank d (List.mem_cons_of_mem c member)
      by_cases atBreak : c = '\n'
      · subst atBreak
        rw [List.cons_append, trimRest_break, trimLines_gap rest solid]
        simp [trimGap, breaks_break]
      · rw [List.cons_append, trimRest_space (blank c List.mem_cons_self) atBreak, ih rest]
        simp only [blank_firstLine_gap rest solid]
        by_cases member : '\n' ∈ g
        · simp [trimGap, member, breaks_cons atBreak]
        · simp [trimGap, member, Ne.symm atBreak]

theorem trimLines_blank (blank : Blank g) : trimLines g = breaks g := by
  induction g with
  | nil => rfl
  | cons c g ih =>
      have tail := ih fun d member => blank d (List.mem_cons_of_mem c member)
      by_cases atBreak : c = '\n'
      · subst atBreak
        rw [trimLines_break, tail, breaks_break]
      · rw [trimLines_space (blank c List.mem_cons_self) atBreak, tail, breaks_cons atBreak]

theorem trimRest_blank (blank : Blank g) : trimRest g = breaks g := by
  induction g with
  | nil => rfl
  | cons c g ih =>
      have rest : Blank g := fun d member => blank d (List.mem_cons_of_mem c member)
      by_cases atBreak : c = '\n'
      · subst atBreak
        rw [trimRest_break, trimLines_blank rest, breaks_break]
      · have line : Blank (firstLine g) := fun d member => rest d ((firstLine_isPrefix g).subset member)
        rw [trimRest_space (blank c List.mem_cons_self) atBreak, if_pos line, ih rest,
          breaks_cons atBreak]

end Nipoto.Text
