import Nipoto.Retrieval.Tidy
import Nipoto.Text.Gaps

/-! # Tidying, line by line

What `tidy` makes of the lines of a text. Spaces and tabs go from the end of
every line but the last, a run of empty lines is cut to one, and then every line
is stripped, a list item at its right end only.
-/

namespace Nipoto.Clean

open Text Text.Regex Text.Gaps

def isTrailing (c : Char) : Bool := c == ' ' || c == '\t'

/-- A line without the spaces and tabs at its end. -/
def trimEnd (line : Str) : Str := line.rdropWhile isTrailing

/-- The last line keeps its end. -/
def trimEnds : List Str → List Str
  | [] => []
  | [line] => [line]
  | line :: next :: rest => trimEnd line :: trimEnds (next :: rest)

theorem isSpace_of_isTrailing {c : Char} (trailing : isTrailing c = true) : isSpace c = true := by
  simp only [isTrailing, Bool.or_eq_true, beq_iff_eq] at trailing
  obtain rfl | rfl := trailing <;> decide

theorem trimEnd_cons (c : Char) (line : Str) :
    trimEnd (c :: line) = if trimEnd line = [] ∧ isTrailing c = true then [] else c :: trimEnd line := by
  simp only [trimEnd, List.rdropWhile, List.reverse_cons, List.dropWhile_append, List.reverse_eq_nil_iff]
  cases gone : line.reverse.dropWhile isTrailing with
  | nil => cases trailing : isTrailing c <;> simp [trailing]
  | cons d t => simp

theorem trimEnd_append (w : Str) {line : Str} (some : trimEnd line ≠ []) : trimEnd (w ++ line) = w ++ trimEnd line := by
  induction w with
  | nil => rfl
  | cons c w ih => rw [List.cons_append, trimEnd_cons, ih, if_neg (by simp [some]), List.cons_append]

theorem trimEnd_trailing {w : Str} (trailing : ∀ c ∈ w, isTrailing c = true) : trimEnd w = [] := by
  rw [trimEnd, List.rdropWhile_eq_nil_iff]
  exact trailing

/-- What the pattern takes: some spaces and tabs and the line break after them. -/
theorem matches_trailingSpace {before rest : Str} {d : Cursor} :
    trailingSpace.Matches { before, rest } d ↔
      ∃ w r, rest = w ++ '\n' :: r ∧ w ≠ [] ∧ (∀ c ∈ w, isTrailing c = true) ∧
        d = { before := '\n' :: (w.reverse ++ before), rest := r } := by
  constructor
  · rintro ⟨e, run, f, ⟨x, r, here, isBreak, rfl⟩, rfl⟩
    obtain ⟨w, r', split, long, inside, rfl⟩ := matches_many.mp run
    obtain rfl : x = '\n' := by simpa using isBreak
    simp only at split here
    exact ⟨w, r, by rw [split, here], List.ne_nil_of_length_pos (by omega), inside, rfl⟩
  · rintro ⟨w, r, rfl, some, inside, rfl⟩
    exact ⟨_, matches_many.mpr ⟨w, '\n' :: r, rfl, List.length_pos_iff.mpr some, inside, rfl⟩,
      _, ⟨'\n', r, rfl, rfl, rfl⟩, rfl⟩

theorem no_trailingSpace {c : Char} (other : isTrailing c = false) (before rest : Str) :
    trailingSpace.matchAt before (c :: rest) = none := by
  rw [Pattern.matchAt_eq_none]
  intro d found
  obtain ⟨w, r, split, some, inside, -⟩ := matches_trailingSpace.mp found
  cases w with
  | nil => exact absurd rfl some
  | cons x w =>
      obtain rfl : c = x := (List.cons.inj split).1
      rw [inside c List.mem_cons_self] at other
      exact absurd other (by simp)

theorem no_trailingSpace_run {w : Str} {c : Char} (inside : ∀ x ∈ w, isTrailing x = true) (other : isTrailing c = false)
    (inLine : c ≠ '\n') (before rest : Str) : trailingSpace.matchAt before (w ++ c :: rest) = none := by
  rw [Pattern.matchAt_eq_none]
  intro d found
  obtain ⟨v, r, split, -, trailing, -⟩ := matches_trailingSpace.mp found
  obtain ⟨m, rfl, rest'⟩ | ⟨m, rfl, rest'⟩ := List.append_eq_append_iff.mp split
  · cases m with
    | nil => exact inLine (List.cons.inj rest').1
    | cons x m =>
        obtain rfl : c = x := (List.cons.inj rest').1
        rw [trailing c (by simp)] at other
        exact absurd other (by simp)
  · cases m with
    | nil => exact inLine (List.cons.inj rest').1.symm
    | cons x m =>
        obtain rfl : '\n' = x := (List.cons.inj rest').1
        exact absurd (inside '\n' (by simp)) (by decide)

theorem copy_run {w : Str} {c : Char} (inside : ∀ x ∈ w, isTrailing x = true) (other : isTrailing c = false)
    (inLine : c ≠ '\n') (before rest : Str) :
    subFrom trailingSpace (fun _ => ['\n']) 0 before (w ++ c :: rest) =
      w ++ subFrom trailingSpace (fun _ => ['\n']) 0 (w.reverse ++ before) (c :: rest) := by
  induction w generalizing before with
  | nil => rfl
  | cons x w ih =>
      have none := no_trailingSpace_run inside other inLine before rest
      rw [List.cons_append] at none ⊢
      rw [subFrom_of_none none, ih fun y member => inside y (List.mem_cons_of_mem x member)]
      simp

/-- The end of a line without a line break after it is copied. -/
theorem subFrom_last {line : Str} (single : '\n' ∉ line) (before : Str) :
    subFrom trailingSpace (fun _ => ['\n']) 0 before line = line := by
  induction line generalizing before with
  | nil => rfl
  | cons c line ih =>
      have none : trailingSpace.matchAt before (c :: line) = none := by
        rw [Pattern.matchAt_eq_none]
        intro d found
        obtain ⟨w, r, split, -⟩ := matches_trailingSpace.mp found
        exact single (by simp [split])
      rw [subFrom_of_none none, ih fun later => single (List.mem_cons_of_mem c later)]

/-- A line with a line break after it loses its end. -/
theorem subFrom_line {line : Str} (single : '\n' ∉ line) (before t : Str) :
    ∃ later, subFrom trailingSpace (fun _ => ['\n']) 0 before (line ++ '\n' :: t) =
      trimEnd line ++ '\n' :: subFrom trailingSpace (fun _ => ['\n']) 0 later t := by
  induction line using run_induction (p := isTrailing) generalizing before with
  | nil => exact ⟨'\n' :: before, subFrom_of_none (no_trailingSpace (by decide) before t)⟩
  | outside c line other ih =>
      obtain ⟨later, rest⟩ := ih (fun member => single (List.mem_cons_of_mem c member)) (c :: before)
      refine ⟨later, ?_⟩
      rw [List.cons_append, subFrom_of_none (no_trailingSpace other before _), rest, trimEnd_cons,
        if_neg (by simp [other])]
      rfl
  | run w line some inside ended ih =>
      cases line with
      | nil =>
          have noBreak : '\n' ∉ w := fun member => absurd (inside '\n' member) (by decide)
          have found : trailingSpace.matchAt before (w ++ '\n' :: t) =
              Option.some { before := '\n' :: (w.reverse ++ before), rest := t } := by
            apply Pattern.matchAt_of_unique
            · exact matches_trailingSpace.mpr ⟨w, t, rfl, some, inside, rfl⟩
            · intro e other
              obtain ⟨v, r, split, -, trailing, rfl⟩ := matches_trailingSpace.mp other
              have single : '\n' ∉ v := fun member => absurd (trailing '\n' member) (by decide)
              have same := congrArg firstLine split
              rw [firstLine_append_break noBreak, firstLine_append_break single] at same
              subst same
              rw [(List.cons.inj (List.append_cancel_left split)).2]
          refine ⟨'\n' :: (w.reverse ++ before), ?_⟩
          rw [List.append_nil, trimEnd_trailing inside, List.nil_append]
          have replaced := @subFrom_of_some trailingSpace (fun _ => ['\n']) before _ (w ++ ['\n']) t (by simp)
            (by simpa using found) rfl
          simpa using replaced
      | cons c line =>
          have other := ended c rfl
          have inLine : c ≠ '\n' := by rintro rfl; exact single (by simp)
          obtain ⟨later, rest⟩ := ih (fun member => single (List.mem_append_right w member)) (w.reverse ++ before)
          refine ⟨later, ?_⟩
          have kept : trimEnd (c :: line) ≠ [] := by simp [trimEnd_cons, other]
          rw [List.append_assoc, List.cons_append, copy_run inside other inLine, ← List.cons_append, rest,
            trimEnd_append w kept, List.append_assoc]

theorem trimEnds_cons (line : Str) {rest : List Str} (more : rest ≠ []) :
    trimEnds (line :: rest) = trimEnd line :: trimEnds rest := by
  cases rest with
  | nil => exact absurd rfl more
  | cons next rest => rfl

theorem trimEnds_ne_nil {ls : List Str} (some : ls ≠ []) : trimEnds ls ≠ [] := by
  fun_cases trimEnds ls with
  | case1 => exact some
  | case2 line => simp
  | case3 line next rest => simp

theorem trimEnds_of_trimmed {ls : List Str} (trimmed : ∀ line ∈ ls, trimEnd line = line) : trimEnds ls = ls := by
  fun_induction trimEnds ls with
  | case1 | case2 => rfl
  | case3 line next rest ih =>
      rw [trimmed line List.mem_cons_self, ih fun l member => trimmed l (List.mem_cons_of_mem line member)]

theorem mem_trimEnds {line : Str} {ls : List Str} (member : line ∈ trimEnds ls) : ∃ old ∈ ls, line <+: old := by
  fun_induction trimEnds ls with
  | case1 => exact absurd member List.not_mem_nil
  | case2 only => exact ⟨only, List.mem_singleton_self only, List.mem_singleton.mp member ▸ List.prefix_rfl⟩
  | case3 first next rest ih =>
      cases List.mem_cons.mp member with
      | inl here => exact ⟨first, List.mem_cons_self, here ▸ List.rdropWhile_prefix _ first⟩
      | inr later =>
          obtain ⟨old, known, front⟩ := ih later
          exact ⟨old, List.mem_cons_of_mem first known, front⟩

/-- The lines below the first one. -/
def below (ls : List Str) : Str := ls.flatMap fun line => '\n' :: line

theorem join_below (line : Str) (ls : List Str) : join ['\n'] (line :: ls) = line ++ below ls := by
  induction ls generalizing line with
  | nil => simp [join, below]
  | cons next ls ih =>
      rw [join, List.intercalate_cons_cons, ← join, ih]
      simp [below]

theorem join_above (ls : List Str) (some : ls ≠ []) : below ls = '\n' :: join ['\n'] ls := by
  cases ls with
  | nil => exact absurd rfl some
  | cons line ls =>
      rw [join_below]
      rfl

theorem subFrom_trailingSpace (before t : Str) :
    subFrom trailingSpace (fun _ => ['\n']) 0 before t = join ['\n'] (trimEnds (lines t)) := by
  induction t using split_induction (p := (· == '\n')) generalizing before with
  | whole line single =>
      have noBreak : '\n' ∉ line := fun member => by simpa using single '\n' member
      rw [subFrom_last noBreak, lines_whole noBreak]
      simp [trimEnds, join]
  | parted line c t single found _ later =>
      obtain rfl : c = '\n' := beq_iff_eq.mp found
      have noBreak : '\n' ∉ line := fun member => by simpa using single '\n' member
      obtain ⟨before', rest⟩ := subFrom_line noBreak before t
      rw [rest, later t le_rfl, lines_append, lines_whole noBreak, List.singleton_append, trimEnds_cons _ (lines_ne_nil t), join_below,
        join_above _ (trimEnds_ne_nil (lines_ne_nil t))]

/-- Of neighbouring empty lines only one is left. -/
def fewEmpty : List Str → List Str
  | [] :: [] :: rest => fewEmpty ([] :: rest)
  | line :: rest => line :: fewEmpty rest
  | [] => []

/-- `\n{3,}` becomes two line breaks. -/
def cutBreaks (t : Str) : Str := sub multiNewline (fun _ => ['\n', '\n']) t

theorem cutBreaks_run {n : Nat} {t : Str} (ended : ∀ c ∈ t.head?, c ≠ '\n') :
    cutBreaks (List.replicate n '\n' ++ t) = List.replicate (min n 2) '\n' ++ cutBreaks t := by
  have run := @squeeze_run 3 (· == '\n') ['\n', '\n'] (by decide) (List.replicate n '\n')
    (by simp) t (fun c atHead => beq_eq_false_iff_ne.mpr (ended c atHead))
  simp only [List.length_replicate] at run
  refine run.trans (congrArg (· ++ cutBreaks t) ?_)
  split
  · rw [show min n 2 = 2 by omega]
    rfl
  · rw [show min n 2 = n by omega]

theorem cutBreaks_line {line : Str} (single : '\n' ∉ line) (t : Str) : cutBreaks (line ++ t) = line ++ cutBreaks t := by
  induction line with
  | nil => rfl
  | cons c line ih =>
      have inLine : c ≠ '\n' := by rintro rfl; exact single List.mem_cons_self
      have copied := @squeeze_outside 3 (· == '\n') ['\n', '\n'] (by decide) c (beq_eq_false_iff_ne.mpr inLine)
        (line ++ t)
      rw [List.cons_append, List.cons_append, ← ih fun later => single (List.mem_cons_of_mem c later)]
      exact copied

theorem exists_breaks (t : Str) :
    ∃ n rest, t = List.replicate n '\n' ++ rest ∧ ∀ c ∈ rest.head?, c ≠ '\n' := by
  have run : t.takeWhile (· == '\n') = List.replicate (t.takeWhile (· == '\n')).length '\n' :=
    List.eq_replicate_of_mem fun c member => by simpa using List.mem_takeWhile_imp member
  refine ⟨(t.takeWhile (· == '\n')).length, t.dropWhile (· == '\n'), ?_,
    fun c atHead => by simpa using @dropWhile_head (· == '\n') t c atHead⟩
  rw [← run, List.takeWhile_append_dropWhile]

theorem cutBreaks_three (t : Str) : cutBreaks ('\n' :: '\n' :: '\n' :: t) = cutBreaks ('\n' :: '\n' :: t) := by
  obtain ⟨n, rest, rfl, ended⟩ := exists_breaks t
  have three := @cutBreaks_run (n + 3) rest ended
  have two := @cutBreaks_run (n + 2) rest ended
  simp only [List.replicate_succ, List.cons_append] at three two
  rw [three, two, show min (n + 3) 2 = 2 by omega, show min (n + 2) 2 = 2 by omega]

/-- A text that begins with a line break still does. -/
theorem cutBreaks_first (t : Str) : ∃ rest, cutBreaks ('\n' :: t) = '\n' :: rest := by
  obtain ⟨n, rest, rfl, ended⟩ := exists_breaks t
  have run := @cutBreaks_run (n + 1) rest ended
  obtain ⟨m, some⟩ : ∃ m, min (n + 1) 2 = m + 1 := ⟨min n 1, by omega⟩
  rw [some, List.replicate_succ, List.replicate_succ, List.cons_append, List.cons_append] at run
  exact ⟨_, run⟩

theorem cutBreaks_blank {t : Str} (blank : Blank t) : Blank (cutBreaks t) := by
  intro c member
  cases mem_squeeze (by decide : 0 < 3) member with
  | inl put => exact (by decide : ∀ d ∈ ['\n', '\n'], isSpace d = true) c put
  | inr old => exact blank c old

theorem cutBreaks_break {t : Str} (few : ¬ ['\n', '\n'] <+: t) : cutBreaks ('\n' :: t) = '\n' :: cutBreaks t := by
  have one : ∀ {t : Str}, (∀ c ∈ t.head?, c ≠ '\n') → cutBreaks ('\n' :: t) = '\n' :: cutBreaks t :=
    fun ended => @cutBreaks_run 1 _ ended
  cases t with
  | nil => rfl
  | cons c t =>
      by_cases atBreak : c = '\n'
      · subst atBreak
        have ended : ∀ c ∈ t.head?, c ≠ '\n' := by
          rintro c atHead rfl
          cases t with
          | nil => simp at atHead
          | cons d t =>
              obtain rfl : d = '\n' := by simpa using atHead
              exact few ⟨t, rfl⟩
        rw [one ended]
        exact @cutBreaks_run 2 _ ended
      · exact one (by simpa using atBreak)

/-- The blank lines above a line that is not empty. -/
theorem cutBreaks_below {g : List Str} (single : ∀ line ∈ g, '\n' ∉ line) {c : Char} (inLine : c ≠ '\n') (t : Str) :
    cutBreaks (below g ++ '\n' :: c :: t) = below (fewEmpty g) ++ '\n' :: cutBreaks (c :: t) := by
  fun_induction fewEmpty g with
  | case1 rest ih =>
      obtain ⟨u, next⟩ : ∃ u, below rest ++ '\n' :: c :: t = '\n' :: u := by
        cases rest with
        | nil => exact ⟨c :: t, rfl⟩
        | cons line rest => exact ⟨_, rfl⟩
      have fewer := ih fun line member => single line (List.mem_cons_of_mem _ member)
      have front : below ([] :: [] :: rest) ++ '\n' :: c :: t = '\n' :: '\n' :: '\n' :: u := by
        rw [← next]
        rfl
      rw [front, cutBreaks_three, ← fewer, ← next]
      rfl
  | case2 line rest other ih =>
      have rest' := ih fun l member => single l (List.mem_cons_of_mem _ member)
      have front : below (line :: rest) ++ '\n' :: c :: t = '\n' :: (line ++ (below rest ++ '\n' :: c :: t)) := by
        simp [below]
      have few : ¬ ['\n', '\n'] <+: line ++ (below rest ++ '\n' :: c :: t) := by
        rintro ⟨u, twice⟩
        cases line with
        | cons d line => exact single (d :: line) List.mem_cons_self ((List.cons.inj twice).1 ▸ List.mem_cons_self)
        | nil =>
            cases rest with
            | nil => exact inLine (List.cons.inj (List.cons.inj twice).2).1.symm
            | cons next rest =>
                cases next with
                | nil => exact other rest rfl rfl
                | cons d next =>
                    have same : '\n' = d := (List.cons.inj (List.cons.inj twice).2).1
                    exact single (d :: next) (by simp) (same ▸ List.mem_cons_self)
      rw [front, cutBreaks_break few, cutBreaks_line (single line List.mem_cons_self), rest']
      simp [below]
  | case3 => exact cutBreaks_break (by rintro ⟨u, twice⟩; exact inLine (List.cons.inj twice).1.symm)

/-- The line keeps its indentation. -/
def IsItem (line : Str) : Prop := (listItem.matchAt [] line).isSome = true

/-- A dash, a star, or a number with a dot. -/
def IsMark (mark : Str) : Prop :=
  mark = ['-'] ∨ mark = ['*'] ∨ ∃ digits, mark = digits ++ ['.'] ∧ digits ≠ [] ∧ ∀ c ∈ digits, isDigit c = true

theorem isItem_iff {line : Str} :
    IsItem line ↔ ∃ indent mark c rest, line = indent ++ (mark ++ c :: rest) ∧ indent ≠ [] ∧ Blank indent ∧
      IsMark mark ∧ isSpace c = true := by
  rw [IsItem, Option.isSome_iff_ne_none, Ne, Pattern.matchAt_eq_none, not_forall]
  simp only [not_not]
  constructor
  · rintro ⟨d, _, ⟨-, rfl⟩, e, run, f, marked, g, ⟨c, r, here, space, rfl⟩, rfl⟩
    obtain ⟨indent, r', split, long, blank, rfl⟩ := matches_many.mp run
    have some : indent ≠ [] := List.ne_nil_of_length_pos (by omega)
    simp only at split here
    rcases marked with ⟨x, r'', begins, isMark, rfl⟩ | ⟨h, number, k, ⟨x, r'', begins, isDot, rfl⟩, rfl⟩
    · simp only at begins here
      refine ⟨indent, [x], c, r, by rw [split, begins, here]; rfl, some, blank, ?_, space⟩
      obtain rfl | rfl : x = '-' ∨ x = '*' := by simpa using isMark
      · exact .inl rfl
      · exact .inr (.inl rfl)
    · obtain ⟨digits, r''', split', long', inside, rfl⟩ := matches_many.mp number
      obtain rfl : x = '.' := by simpa using isDot
      simp only at split' begins here
      exact ⟨indent, digits ++ ['.'], c, r, by rw [split, split', begins, here]; simp, some, blank,
        .inr (.inr ⟨digits, rfl, List.ne_nil_of_length_pos (by omega), inside⟩), space⟩
  · rintro ⟨indent, mark, c, rest, rfl, some, blank, marked, space⟩
    have spaces : (Pattern.many 1 none isSpace).Matches { before := [], rest := indent ++ (mark ++ c :: rest) }
        { before := indent.reverse ++ [], rest := mark ++ c :: rest } :=
      matches_many.mpr ⟨indent, _, rfl, List.length_pos_iff.mpr some, blank, rfl⟩
    rcases marked with rfl | rfl | ⟨digits, rfl, more, inside⟩
    · exact ⟨_, _, ⟨rfl, rfl⟩, _, spaces, _, .inl ⟨_, _, rfl, by decide, rfl⟩, _, ⟨_, _, rfl, space, rfl⟩, rfl⟩
    · exact ⟨_, _, ⟨rfl, rfl⟩, _, spaces, _, .inl ⟨_, _, rfl, by decide, rfl⟩, _, ⟨_, _, rfl, space, rfl⟩, rfl⟩
    · have number : (Pattern.many 1 none isDigit).Matches
          { before := indent.reverse ++ [], rest := digits ++ ['.'] ++ c :: rest }
          { before := digits.reverse ++ (indent.reverse ++ []), rest := '.' :: c :: rest } :=
        matches_many.mpr ⟨digits, '.' :: c :: rest, by simp, List.length_pos_iff.mpr more, inside, rfl⟩
      exact ⟨_, _, ⟨rfl, rfl⟩, _, spaces, _, .inr ⟨_, number, _, ⟨_, _, rfl, by decide, rfl⟩, rfl⟩, _,
        ⟨_, _, rfl, space, rfl⟩, rfl⟩

theorem tidyLine_item {line : Str} (item : IsItem line) : tidyLine line = rstrip line := if_pos item

theorem tidyLine_other {line : Str} (other : ¬ IsItem line) : tidyLine line = strip line := if_neg other

def tidyLines (t : Str) : Str := join ['\n'] ((lines t).map tidyLine)

theorem tidy_eq (t : Str) : tidy t = strip (tidyLines (cutBreaks (sub trailingSpace (fun _ => ['\n']) t))) := rfl

theorem tidyLine_blank {line : Str} (blank : Blank line) : tidyLine line = [] := by
  unfold tidyLine
  split
  · exact rstrip_eq_nil.mpr blank
  · exact strip_eq_nil.mpr blank

/-- A line that begins with a solid character is stripped at its right end. -/
theorem tidyLine_solid {c : Char} (solid : isSpace c = false) (line : Str) :
    tidyLine (c :: line) = c :: rstrip line := by
  have right : rstrip (c :: line) = c :: rstrip line := by simp [rstrip_cons, solid]
  unfold tidyLine
  split
  · exact right
  · exact strip_solid solid line

theorem tidyLines_single {line : Str} (single : '\n' ∉ line) : tidyLines line = tidyLine line := by
  rw [tidyLines, lines_whole single]
  simp [join]

theorem tidyLines_break (a b : Str) : tidyLines (a ++ '\n' :: b) = tidyLines a ++ '\n' :: tidyLines b := by
  obtain ⟨rest, first⟩ := lines_eq a
  rw [tidyLines, tidyLines, tidyLines, lines_append, first, List.map_append, List.map_cons, List.cons_append, join_below,
    join_below, ← join_above _ (by simp [lines_ne_nil])]
  simp [below]

theorem tidyLines_below {line : Str} {ls : List Str} (single : ∀ l ∈ line :: ls, '\n' ∉ l) :
    tidyLines (line ++ below ls) = tidyLine line ++ below (ls.map tidyLine) := by
  have whole : lines (line ++ below ls) = line :: ls := by
    rw [← join_below, lines, join, List.splitOn_intercalate '\n' single (List.cons_ne_nil _ _)]
  rw [tidyLines, whole, List.map_cons, join_below]

theorem tidyLines_blank {t : Str} (blank : Blank t) : Blank (tidyLines t) := by
  induction t using line_induction with
  | single line noBreak =>
      rw [tidyLines_single noBreak, tidyLine_blank blank]
      exact fun c member => absurd member List.not_mem_nil
  | parted a b first second =>
      rw [tidyLines_break]
      intro c member
      rcases List.mem_append.mp member with inFirst | inSecond
      · exact first (fun d known => blank d (List.mem_append_left _ known)) c inFirst
      · rcases List.mem_cons.mp inSecond with rfl | later
        · decide
        · exact second (fun d known => blank d (List.mem_append_right _ (List.mem_cons_of_mem _ known))) c later

theorem tidyLine_indent {c : Char} (solid : isSpace c = false) {p : Str} (blank : Blank p) (line : Str) :
    ∃ w, Blank w ∧ tidyLine (p ++ c :: line) = w ++ tidyLine (c :: line) := by
  have kept : ∀ w : Str, rstrip (w ++ c :: line) = w ++ c :: rstrip line := by
    intro w
    induction w with
    | nil => simp [rstrip_cons, solid]
    | cons d w ih => rw [List.cons_append, rstrip_cons, ih, if_neg (by simp), List.cons_append]
  rw [tidyLine_solid solid]
  unfold tidyLine
  split
  · exact ⟨p, blank, kept p⟩
  · exact ⟨[], fun d member => absurd member List.not_mem_nil, by rw [strip_blank_append blank, strip_solid solid]; rfl⟩

/-- White space in front of the first visible character makes no difference to the stripped text. -/
theorem strip_tidyLines {c : Char} (solid : isSpace c = false) {p : Str} (blank : Blank p) (t : Str) :
    strip (tidyLines (p ++ c :: t)) = strip (tidyLines (c :: t)) := by
  induction p using line_induction with
  | single p noBreak =>
      have inLine : c ≠ '\n' := by rintro rfl; exact absurd solid (by decide)
      by_cases more : '\n' ∈ t
      · obtain ⟨line, rest, rfl, single⟩ := List.eq_append_cons_of_mem more
        obtain ⟨w, gap, indented⟩ := tidyLine_indent solid blank line
        have split : p ++ c :: (line ++ '\n' :: rest) = (p ++ c :: line) ++ '\n' :: rest := by simp
        have first : tidyLines (p ++ c :: line) = tidyLine (p ++ c :: line) :=
          tidyLines_single (by simp [noBreak, single, inLine.symm])
        have alone : tidyLines (c :: line) = tidyLine (c :: line) := tidyLines_single (by simp [single, inLine.symm])
        rw [split, ← List.cons_append, tidyLines_break, tidyLines_break, first, alone, indented, List.append_assoc,
          strip_blank_append gap]
      · obtain ⟨w, gap, indented⟩ := tidyLine_indent solid blank t
        rw [tidyLines_single (by simp [noBreak, more, inLine.symm]), tidyLines_single (by simp [more, inLine.symm]), indented,
          strip_blank_append gap]
  | parted a b _ second =>
      have split : a ++ '\n' :: b ++ c :: t = a ++ '\n' :: (b ++ c :: t) := by simp
      have front : Blank (tidyLines a) := tidyLines_blank fun d member => blank d (List.mem_append_left _ member)
      have back : Blank b := fun d member => blank d (List.mem_append_right _ (List.mem_cons_of_mem _ member))
      rw [split, tidyLines_break, strip_blank_append front, strip_space (by decide), second back]

def blankLine (line : Str) : Bool := decide (Blank line)

/-- A visible line with the lines above it, after tidying. -/
def laid (c : Cell Str) : Cell Str := (List.replicate (fewEmpty c.1).length [], tidyLine c.2)

theorem blankLine_iff {line : Str} : blankLine line = true ↔ Blank line := decide_eq_true_iff

theorem visible_cons {line : Str} (shown : blankLine line = false) (single : '\n' ∉ line) :
    ∃ c rest, line = c :: rest ∧ c ≠ '\n' := by
  cases line with
  | nil => exact absurd shown (by decide)
  | cons c rest => exact ⟨c, rest, rfl, by rintro rfl; exact single List.mem_cons_self⟩

theorem below_append (a b : List Str) : below (a ++ b) = below a ++ below b := List.flatMap_append

theorem below_cons (line : Str) (ls : List Str) : below (line :: ls) = '\n' :: (line ++ below ls) := rfl

theorem lines_blank {t : Str} (blank : Blank t) : IsGap blankLine (lines t) := by
  intro line member
  apply blankLine_iff.mpr
  intro c inLine
  have inText : c ∈ below (lines t) := List.mem_flatMap.mpr ⟨line, member, List.mem_cons_of_mem _ inLine⟩
  rw [join_above _ (lines_ne_nil t), join_lines] at inText
  rcases List.mem_cons.mp inText with rfl | known
  · decide
  · exact blank c known

theorem cutBreaks_gap {g : List Str} (gap : IsGap blankLine g) :
    ∃ g', IsGap blankLine g' ∧ (∀ line ∈ g', '\n' ∉ line) ∧ cutBreaks (below g) = below g' := by
  cases g with
  | nil => exact ⟨[], by simp [IsGap], by simp, rfl⟩
  | cons line g =>
      have blank : Blank (below (line :: g)) := by
        intro c member
        obtain ⟨old, known, inside⟩ := List.mem_flatMap.mp member
        rcases List.mem_cons.mp inside with rfl | inLine
        · decide
        · exact blankLine_iff.mp (gap old known) c inLine
      obtain ⟨rest, first⟩ := cutBreaks_first (line ++ below g)
      rw [below_cons] at blank ⊢
      have blankRest := cutBreaks_blank blank
      rw [first] at blankRest
      have gapRest := lines_blank fun c member => blankRest c (List.mem_cons_of_mem _ member)
      refine ⟨lines rest, gapRest, fun l member => lines_single member, ?_⟩
      rw [first, join_above _ (lines_ne_nil rest), join_lines]

theorem cutBreaks_cells {cs : List (Cell Str)} {last : List Str} (proper : Proper blankLine cs)
    (gapEnd : IsGap blankLine last) (single : ∀ line ∈ render cs last, '\n' ∉ line) :
    ∃ last', IsGap blankLine last' ∧ (∀ line ∈ last', '\n' ∉ line) ∧
      cutBreaks (below (render cs last)) = below (render (cs.map fun c => (fewEmpty c.1, c.2)) last') := by
  induction cs with
  | nil => exact cutBreaks_gap gapEnd
  | cons c cs ih =>
      obtain ⟨g, w⟩ := c
      have inGap : ∀ line ∈ g, '\n' ∉ line := fun line member => single line (by simp [render, member])
      have inLine : '\n' ∉ w := single w (by simp [render])
      obtain ⟨last', gap, breakless, rest⟩ := ih (proper.tail blankLine) fun line member => single line (by simp [render, member])
      obtain ⟨d, w', rfl, first⟩ := visible_cons (proper.head blankLine).2 inLine
      refine ⟨last', gap, breakless, ?_⟩
      have split : below (render ((g, d :: w') :: cs) last) =
          below g ++ '\n' :: d :: (w' ++ below (render cs last)) := by
        rw [render, below_append, below_cons]
        rfl
      rw [split, cutBreaks_below inGap first, ← List.cons_append, cutBreaks_line inLine, rest, List.map_cons, render,
        below_append, below_cons]

theorem mem_fewEmpty {line : Str} {g : List Str} (member : line ∈ fewEmpty g) : line ∈ g := by
  fun_induction fewEmpty g with
  | case1 rest ih => exact List.mem_cons_of_mem _ (ih member)
  | case2 first rest _ ih =>
      rcases List.mem_cons.mp member with rfl | later
      · exact List.mem_cons_self
      · exact List.mem_cons_of_mem _ (ih later)
  | case3 => exact member

theorem map_tidyLine_gap {g : List Str} (gap : IsGap blankLine g) : g.map tidyLine = List.replicate g.length [] := by
  rw [List.eq_replicate_iff]
  refine ⟨List.length_map _, ?_⟩
  intro line member
  obtain ⟨old, known, rfl⟩ := List.mem_map.mp member
  exact tidyLine_blank (blankLine_iff.mp (gap old known))

theorem map_tidyLine_cells {cs : List (Cell Str)} (proper : Proper blankLine cs) (last : List Str) :
    (render (cs.map fun c => (fewEmpty c.1, c.2)) last).map tidyLine = render (cs.map laid) (last.map tidyLine) := by
  induction cs with
  | nil => rfl
  | cons c cs ih =>
      have gap : IsGap blankLine (fewEmpty c.1) :=
        fun line member => (proper.head blankLine).1 line (mem_fewEmpty member)
      rw [List.map_cons, List.map_cons, render, List.map_append, List.map_cons, ih (proper.tail blankLine),
        map_tidyLine_gap gap]
      rfl

theorem tidyLine_filled {line : Str} (shown : blankLine line = false) : tidyLine line ≠ [] := by
  have solid : ¬ Blank line := fun blank => by simp [blankLine, blank] at shown
  unfold tidyLine
  split
  · exact fun none => solid (rstrip_eq_nil.mp none)
  · exact fun none => solid (strip_eq_nil.mp none)

theorem tidyLine_last (line : Str) : ∀ c ∈ (tidyLine line).getLast?, isSpace c = false := by
  intro c atEnd
  unfold tidyLine at atEnd
  split at atEnd
  · obtain ⟨nonempty, rfl⟩ := List.mem_getLast?_eq_getLast atEnd
    exact Bool.eq_false_iff.mpr (List.rdropWhile_last_not isSpace line nonempty)
  · exact strip_last c atEnd

/-- A visible line is the last one. -/
theorem laid_last {line : Str} (some : line ≠ []) (ended : ∀ c ∈ line.getLast?, isSpace c = false) {cs : List (Cell Str)}
    (proper : Proper blankLine cs) :
    ∀ c ∈ (line ++ below (render (cs.map laid) [])).getLast?, isSpace c = false := by
  induction cs generalizing line with
  | nil => simpa [render, below] using ended
  | cons c cs ih =>
      have filled := tidyLine_filled (proper.head blankLine).2
      have split : line ++ below (render ((c :: cs).map laid) []) = (line ++ below (laid c).1 ++ ['\n']) ++
          (tidyLine c.2 ++ below (render (cs.map laid) [])) := by
        rw [List.map_cons, render, below_append, below_cons]
        simp [laid]
      rw [split, List.getLast?_append_of_ne_nil _ (by simp [filled])]
      exact ih filled (tidyLine_last c.2) (proper.tail blankLine)

theorem join_front (g : List Str) (line : Str) (ls : List Str) :
    join ['\n'] (g ++ line :: ls) = g.flatMap (· ++ ['\n']) ++ (line ++ below ls) := by
  induction g with
  | nil => exact join_below line ls
  | cons l g ih =>
      rw [List.cons_append, join_below, join_above _ (by simp), ih]
      simp

theorem exists_indent {line : Str} (shown : blankLine line = false) :
    ∃ indent c rest, line = indent ++ c :: rest ∧ Blank indent ∧ isSpace c = false := by
  have split : line.takeWhile isSpace ++ lstrip line = line := List.takeWhile_append_dropWhile
  have some : lstrip line ≠ [] := by
    intro none
    rw [blankLine_iff.mpr (lstrip_eq_nil.mp none)] at shown
    exact absurd shown (by simp)
  have solid : isSpace ((lstrip line).head some) = false := List.head_dropWhile_not isSpace some
  refine ⟨line.takeWhile isSpace, (lstrip line).head some, (lstrip line).tail, ?_,
    fun c member => List.mem_takeWhile_imp member, solid⟩
  rw [List.cons_head_tail, split]

theorem front_blank {g : List Str} (gap : IsGap blankLine g) {indent : Str} (blank : Blank indent) :
    Blank (g.flatMap (· ++ ['\n']) ++ indent) := by
  intro c member
  rcases List.mem_append.mp member with inGap | inLine
  · obtain ⟨line, known, inside⟩ := List.mem_flatMap.mp inGap
    rcases List.mem_append.mp inside with inLine | atEnd
    · exact blankLine_iff.mp (gap line known) c inLine
    · obtain rfl := List.mem_singleton.mp atEnd
      decide
  · exact blank c inLine

theorem below_empty (n : Nat) : Blank (below (List.replicate n [])) := by
  intro c member
  obtain ⟨line, known, inside⟩ := List.mem_flatMap.mp member
  obtain rfl := (List.mem_replicate.mp known).2
  obtain rfl := List.mem_singleton.mp inside
  decide

theorem strip_append_blank (s : Str) {b : Str} (blank : Blank b) : strip (s ++ b) = strip s := by
  rw [← strip_rstrip (s ++ b), rstrip_append_blank s blank, strip_rstrip]

theorem strip_tidy (t : Str) : strip (tidy t) = tidy t := strip_strip _

theorem tidy_blank {t : Str} (blank : Blank t) : tidy t = [] := by
  have none : Blank (tidy t) := content_eq_nil.mp (by rw [content_tidy, content_eq_nil.mpr blank])
  rw [← strip_tidy, strip_eq_nil.mpr none]

/-- From the first visible character on, the text is cut line by line. -/
theorem cutBreaks_visible (g : List Str) (indent : Str) {c : Char} {rest : Str} (solid : isSpace c = false)
    (inLine : '\n' ∉ c :: rest) {cs : List (Cell Str)} {last : List Str} {cut : Str}
    (below_cut : cutBreaks (below (render cs last)) = cut) :
    cutBreaks (join ['\n'] (render ((g, indent ++ c :: rest) :: cs) last)) =
      cutBreaks (g.flatMap (· ++ ['\n']) ++ indent) ++ (c :: rest ++ cut) := by
  have outside : (c == '\n') = false := by
    rw [beq_eq_false_iff_ne]
    rintro rfl
    exact absurd solid (by decide)
  have parted : cutBreaks (g.flatMap (· ++ ['\n']) ++ indent ++ c :: (rest ++ below (render cs last))) =
      cutBreaks (g.flatMap (· ++ ['\n']) ++ indent) ++ c :: cutBreaks (rest ++ below (render cs last)) :=
    @squeeze_append_outside 3 (· == '\n') ['\n', '\n'] (by decide) c outside _ _
  have line := cutBreaks_line (fun member => inLine (List.mem_cons_of_mem c member)) (below (render cs last))
  rw [render, join_front, ← below_cut, List.cons_append, ← line, ← List.append_assoc, ← List.append_assoc]
  simpa using parted

/-- What tidying makes of the visible lines. -/
theorem tidy_cells {t v : Str} {g last : List Str} {cs : List (Cell Str)} (proper : Proper blankLine ((g, v) :: cs))
    (gapEnd : IsGap blankLine last) (whole : trimEnds (lines t) = render ((g, v) :: cs) last) :
    tidy t = join ['\n'] (strip v :: render (cs.map laid) []) := by
  have single : ∀ line ∈ render ((g, v) :: cs) last, '\n' ∉ line := by
    intro line member lineBreak
    obtain ⟨old, known, front⟩ := mem_trimEnds (whole ▸ member)
    exact lines_single known (front.subset lineBreak)
  obtain ⟨last', gapEnd', breakless, cells⟩ := cutBreaks_cells (proper.tail blankLine) gapEnd
    fun line member => single line (by simp [render, member])
  obtain ⟨indent, c, rest, rfl, blank, solid⟩ := exists_indent (proper.head blankLine).2
  have inLine : '\n' ∉ c :: rest := fun member => single _ (by simp [render]) (List.mem_append_right indent member)
  have cut := cutBreaks_visible g indent solid inLine cells
  have linesSingle : ∀ line ∈ (c :: rest) :: render (cs.map fun c => (fewEmpty c.1, c.2)) last', '\n' ∉ line := by
    intro line member
    rcases List.mem_cons.mp member with rfl | later
    · exact inLine
    · rcases mem_render.mp later with ⟨d, known, inside⟩ | atEnd
      · obtain ⟨old, inCells, rfl⟩ := List.mem_map.mp known
        apply single line
        rw [render, List.mem_append, List.mem_cons, mem_render]
        exact .inr (.inr (.inl ⟨old, inCells, inside.imp_left mem_fewEmpty⟩))
      · exact breakless line atEnd
  have first : strip (indent ++ c :: rest) = c :: rstrip rest := by rw [strip_blank_append blank, strip_solid solid]
  have ended : ∀ d ∈ (c :: rstrip rest).getLast?, isSpace d = false := by
    rw [← first]
    exact strip_last
  have trimmed : strip (c :: rstrip rest ++ below (render (cs.map laid) [])) =
      c :: rstrip rest ++ below (render (cs.map laid) []) := by
    apply strip_of_trimmed
    · intro d atHead
      obtain rfl : c = d := by simpa using atHead
      exact solid
    · exact laid_last (by simp) ended (proper.tail blankLine)
  rw [tidy_eq, sub, subFrom_trailingSpace, whole, cut, List.cons_append,
    strip_tidyLines solid (cutBreaks_blank (front_blank (proper.head blankLine).1 blank)), ← List.cons_append,
    tidyLines_below linesSingle, tidyLine_solid solid, map_tidyLine_cells (proper.tail blankLine),
    map_tidyLine_gap gapEnd', render_last, below_append, ← List.append_assoc, strip_append_blank _ (below_empty _),
    trimmed, first, join_below]

/-- A visible line that tidying leaves alone. -/
structure Tidied (line : Str) : Prop where
  single : '\n' ∉ line
  trimmed : trimEnd line = line
  shown : blankLine line = false
  kept : tidyLine line = line

/-- Lines without blank lines between them. -/
theorem render_lines (ls last : List Str) : render (ls.map fun line => ([], line)) last = ls ++ last := by
  induction ls with
  | nil => rfl
  | cons line ls ih => rw [List.map_cons, render, ih, List.nil_append, List.cons_append]

theorem map_laid {ls : List Str} (tidied : ∀ line ∈ ls, Tidied line) :
    (ls.map fun line => (([], line) : Cell Str)).map laid = ls.map fun line => ([], line) := by
  rw [List.map_map]
  apply List.map_congr_left
  intro line member
  exact congrArg (Prod.mk []) (tidied line member).kept

/-- Of tidied lines only the blank lines around them are taken away. -/
theorem tidy_framed {line : Str} {rest : List Str} (tidied : ∀ l ∈ line :: rest, Tidied l) (first : strip line = line)
    (before after : Nat) :
    tidy (join ['\n'] (List.replicate before [] ++ (line :: rest) ++ List.replicate after [])) =
      join ['\n'] (line :: rest) := by
  have cells : render ((List.replicate before [], line) :: rest.map fun l => ([], l)) (List.replicate after []) =
      List.replicate before [] ++ (line :: rest) ++ List.replicate after [] := by simp [render, render_lines]
  have blanks : ∀ n, IsGap blankLine (List.replicate n []) := by
    intro n l member
    obtain rfl := (List.mem_replicate.mp member).2
    decide
  have each : ∀ l ∈ List.replicate before [] ++ (line :: rest) ++ List.replicate after [], l = [] ∨ Tidied l := by
    intro l member
    rw [List.mem_append, List.mem_append] at member
    obtain (front | inside) | back := member
    · exact .inl (List.mem_replicate.mp front).2
    · exact .inr (tidied l inside)
    · exact .inl (List.mem_replicate.mp back).2
  have single : ∀ l ∈ List.replicate before [] ++ (line :: rest) ++ List.replicate after [], '\n' ∉ l := by
    intro l member
    obtain rfl | tidy := each l member
    · exact List.not_mem_nil
    · exact tidy.single
  have trimmed : trimEnds (lines (join ['\n'] (List.replicate before [] ++ (line :: rest) ++ List.replicate after []))) =
      render ((List.replicate before [], line) :: rest.map fun l => ([], l)) (List.replicate after []) := by
    rw [lines, join, List.splitOn_intercalate '\n' single (by simp), cells]
    apply trimEnds_of_trimmed
    intro l member
    obtain rfl | tidy := each l member
    · rfl
    · exact tidy.trimmed
  obtain ⟨here, others⟩ := List.forall_mem_cons.mp tidied
  have proper : Proper blankLine ((List.replicate before [], line) :: rest.map fun l => ([], l)) := by
    refine .cons _ (blanks before) here.shown ?_
    intro c member
    obtain ⟨l, inRest, rfl⟩ := List.mem_map.mp member
    exact ⟨by simp [IsGap], (others l inRest).shown⟩
  rw [tidy_cells proper (blanks after) trimmed, map_laid others, render_lines, first, List.append_nil]

end Nipoto.Clean
