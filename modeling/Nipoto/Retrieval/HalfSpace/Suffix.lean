import Nipoto.Retrieval.HalfSpace.Attached

/-! # The spaced suffix: a plural or comparative ending written apart

A match begins with the gap itself, since the lookbehind wants two word
characters right before it, and ends with the whole word after the gap.
-/

namespace Nipoto.Normalize

open Text Text.Regex Text.Gaps

def suffixGap : Pass Char := fun l g r =>
  if 2 ≤ l.length ∧ IsJoint g ∧ r ∈ suffixes then [zwnj] else g

theorem matches_suffixSpaced {before rest : Str} {d : Cursor} :
    suffixSpaced.Matches { before, rest } d ↔
      2 ≤ (touching isBlock before).length ∧ ∃ g s r, rest = g ++ (s ++ r) ∧ IsJoint g ∧
        s ∈ suffixes ∧ r.takeWhile isBlock = [] ∧
        d = { before := (g ++ s).reverse ++ before, rest := r, groups := [(1, s)] } := by
  simp only [suffixSpaced, all, List.foldr_cons, List.foldr_nil]
  constructor
  · rintro ⟨e, ⟨word, rfl⟩, e₂, run, _, ⟨e₃, listed, rfl⟩, e₄, ⟨ended, rfl⟩, rfl⟩
    obtain ⟨g, r, split, long, inside, rfl⟩ := matches_many.mp run
    obtain ⟨s, member, found⟩ := matches_anyOf.mp listed
    obtain ⟨r', split', rfl⟩ := matches_literal.mp found
    simp only at split split'
    subst split split'
    refine ⟨seesBehind_iff.mp word, g, s, r', rfl, ⟨?_, inside⟩, member, no_word_ahead.mp ended, ?_⟩
    · exact List.length_pos_iff.mp long
    · rw [readUpTo_append (w := s) rfl]
      simp
  · rintro ⟨word, g, s, r, rfl, ⟨nonempty, inside⟩, member, ended, rfl⟩
    refine ⟨_, ⟨seesBehind_iff.mpr word, rfl⟩, _,
      matches_many.mpr ⟨g, s ++ r, rfl, List.length_pos_iff.mpr nonempty, inside, rfl⟩, _,
      ⟨_, matches_anyOf.mpr ⟨s, member, matches_literal.mpr ⟨r, rfl, rfl⟩⟩, rfl⟩, _,
      ⟨no_word_ahead.mpr ended, rfl⟩, ?_⟩
    rw [readUpTo_append (w := s) rfl]
    simp [Pattern.Matches]

theorem takeWhile_gap {g rest : Str} (gap : IsGap isSep g)
    (solid : ∀ c ∈ rest.head?, isSep c = false) : (g ++ rest).takeWhile isSep = g := by
  rw [List.takeWhile_append_of_pos gap]
  cases rest with
  | nil => simp
  | cons c rest => simp [solid c rfl]

theorem suffix_head_solid {s : Str} (member : s ∈ suffixes) (r : Str) :
    ∀ c ∈ (s ++ r).head?, isSep c = false := by
  obtain ⟨y, s, rfl⟩ := List.exists_cons_of_ne_nil (suffix_ne_nil member)
  intro c atHead
  obtain rfl : y = c := by simpa using atHead
  exact isSep_of_isBlock (isBlock_of_mem_suffixes member y List.mem_cons_self)

/-- A whole gap and the whole word after it decide about a match at the gap. -/
theorem suffix_no_match {before g rest : Str} (gap : IsGap isSep g)
    (solid : ∀ c ∈ rest.head?, isSep c = false)
    (calm : ¬ (2 ≤ (touching isBlock before).length ∧ IsJoint g ∧
      rest.takeWhile isBlock ∈ suffixes)) : suffixSpaced.matchAt before (g ++ rest) = none := by
  rw [Pattern.matchAt_eq_none]
  intro d m
  obtain ⟨word, g', s, r, split, joint, member, ended, _⟩ := matches_suffixSpaced.mp m
  have gaps : g = g' := by
    rw [← takeWhile_gap gap solid, ← takeWhile_gap joint.gap (suffix_head_solid member r)]
    exact congrArg _ split
  subst gaps
  obtain rfl := List.append_cancel_left split
  apply calm
  rw [takeWhile_word (isBlock_of_mem_suffixes member) ended]
  exact ⟨word, joint, member⟩

theorem matchAt_suffixSpaced {before g s r : Str} (word : 2 ≤ (touching isBlock before).length)
    (joint : IsJoint g) (member : s ∈ suffixes) (ended : r.takeWhile isBlock = []) :
    suffixSpaced.matchAt before (g ++ s ++ r) =
      some { before := (g ++ s).reverse ++ before, rest := r, groups := [(1, s)] } := by
  rw [List.append_assoc]
  apply Pattern.matchAt_of_unique
  · exact matches_suffixSpaced.mpr ⟨word, g, s, r, rfl, joint, member, ended, rfl⟩
  · intro e m
    obtain ⟨_, g', s', r', split, joint', member', ended', rfl⟩ := matches_suffixSpaced.mp m
    have gaps : g = g' := by
      rw [← takeWhile_gap joint.gap (suffix_head_solid member r),
        ← takeWhile_gap joint'.gap (suffix_head_solid member' r')]
      exact congrArg _ split
    subst gaps
    have rest := List.append_cancel_left split
    have words : s = s' := by
      rw [← takeWhile_word (isBlock_of_mem_suffixes member) ended,
        ← takeWhile_word (isBlock_of_mem_suffixes member') ended']
      exact congrArg _ rest
    subst words
    obtain rfl := List.append_cancel_left rest
    rfl

theorem suffix_copies_gap {g : Str} (gap : IsGap isSep g) {before rest : Str}
    (first : suffixSpaced.matchAt before (g ++ rest) = none) :
    subFrom suffixSpaced (fun m => [zwnj] ++ m.group 1) 0 before (g ++ rest) =
      g ++ subFrom suffixSpaced (fun m => [zwnj] ++ m.group 1) 0 (g.reverse ++ before) rest := by
  induction g generalizing before with
  | nil => rfl
  | cons s g ih =>
      have later : suffixSpaced.matchAt (s :: before) (g ++ rest) = none := by
        rw [Pattern.matchAt_eq_none]
        intro d m
        have ended := touching_cons_other isBlock
          (isBlock_of_isSep s (gap s List.mem_cons_self)) before
        have word := (matches_suffixSpaced.mp m).1
        simp [ended] at word
      rw [List.cons_append] at first ⊢
      rw [subFrom_of_none first, ih (fun c member => gap c (List.mem_cons_of_mem s member)) later]
      simp

theorem suffix_quiet (l r : Str) : suffixGap l [] r = [] := by simp [suffixGap, IsJoint]

theorem suffix_fires {g s before last : Str} {ds : List (Cell Char)}
    (word : 2 ≤ (touching isBlock before).length) (joint : IsJoint g) (member : s ∈ suffixes)
    (next : (render ds last).takeWhile isBlock = [])
    (after : subFrom suffixSpaced (fun m => [zwnj] ++ m.group 1) 0 ((g ++ s).reverse ++ before)
      (render ds last) = rewrite isBlock suffixGap s ds last) :
    subFrom suffixSpaced (fun m => [zwnj] ++ m.group 1) 0 before (g ++ s ++ render ds last) =
      [zwnj] ++ s ++ rewrite isBlock suffixGap s ds last := by
  have found := matchAt_suffixSpaced word joint member next
  rw [subFrom_of_some (by simp [joint.1]) found rfl, after]
  rfl

theorem rewrite_suffix {l g s last : Str} {x : Char} {cs ds : List (Cell Char)}
    (long : 2 ≤ l.length) (joint : IsJoint g) (member : s ∈ suffixes)
    (cells : ([], x) :: cs = glue s ds) (ended : onward isBlock ds = []) :
    rewrite isBlock suffixGap l ((g, x) :: cs) last =
      [zwnj] ++ s ++ rewrite isBlock suffixGap s ds last := by
  have word := isBlock_of_mem_suffixes member
  have run : rightRun isBlock ((g, x) :: cs) = s := by
    rw [rightRun_cons, ← rightRun_cons isBlock [] x cs, ← onward_glued, cells,
      onward_glue isBlock word, ended, List.append_nil]
  have fires : suffixGap l g s = [zwnj] := if_pos ⟨long, joint, member⟩
  have restart : leftStep isBlock l g x = leftStep isBlock [] [] x := by
    simp [leftStep, joint.1]
  have rest := @rewrite_glue Char isBlock suffixGap s word [] ds
    (fun _ _ _ _ => suffix_quiet _ _) last
  rw [← cells, rewrite_cons, suffix_quiet] at rest
  rw [rewrite_cons, run, fires, restart, List.append_assoc]
  exact congrArg _ rest

/-- No word is left open: the rule decides at the gap. -/
abbrev SuffixAgrees : (last : Str) → List (Cell Char) → Prop :=
  Scan.Agrees isBlock suffixSpaced (fun m => [zwnj] ++ m.group 1) suffixGap fun _ _ => True

theorem suffix_no_right (l g : Str) : suffixGap l g [] = g := by
  rw [suffixGap, if_neg]
  rintro ⟨_, _, member⟩
  exact suffix_ne_nil member rfl

section
variable {last : Str} {x : Char} {cs : List (Cell Char)}

theorem suffix_end (gapEnd : IsGap isSep last) : SuffixAgrees last [] := by
  intro before _
  have none := @suffix_no_match before last [] gapEnd (by simp)
    (by rintro ⟨_, _, member⟩; exact suffix_ne_nil member rfl)
  apply Scan.finish
  · simpa using suffix_copies_gap gapEnd none
  · exact suffix_no_right _ _

theorem solid_head (proper : Proper isSep (([], x) :: cs)) :
    ∀ c ∈ (x :: render cs last).head?, isSep c = false := by
  intro c atHead
  obtain rfl : x = c := by simpa using atHead
  exact (proper.head isSep).2

theorem suffix_solid (proper : Proper isSep (([], x) :: cs)) (rest : SuffixAgrees last cs) :
    SuffixAgrees last (([], x) :: cs) := by
  intro before _
  have none := @suffix_no_match before [] (x :: render cs last) (by simp [IsGap]) (solid_head proper)
    (by rintro ⟨_, joint, _⟩; exact joint.1 rfl)
  exact Scan.solid (suffix_quiet _ _) none (rest _ trivial)

/-- A match covers the gap and the whole word after it. -/
theorem suffix_match (gapEnd : IsGap isSep last) {g : Str} (proper : Proper isSep ((g, x) :: cs))
    (shorter : ∀ ds, ds.length ≤ cs.length → Proper isSep ds → SuffixAgrees last ds) {before : Str}
    (long : 2 ≤ (touching isBlock before).length) (joint : IsJoint g)
    (member : rightRun isBlock ((g, x) :: cs) ∈ suffixes) :
    subFrom suffixSpaced (fun m => [zwnj] ++ m.group 1) 0 before (render ((g, x) :: cs) last) =
      rewrite isBlock suffixGap (touching isBlock before) ((g, x) :: cs) last := by
  obtain ⟨ds, cells, ended⟩ := onward_split isBlock (([], x) :: cs)
  rw [onward_glued, show rightRun isBlock (([], x) :: cs) = rightRun isBlock ((g, x) :: cs) from rfl]
    at cells
  have word := isBlock_of_mem_suffixes member
  have properRest : Proper isSep ds := Proper.glued isSep (cells ▸ proper.solid isSep)
  have text : render ((g, x) :: cs) last =
      g ++ rightRun isBlock ((g, x) :: cs) ++ render ds last := by
    have texts := congrArg (fun cells => render cells last) cells
    rw [render_glue] at texts
    rw [List.append_assoc, ← texts]
    rfl
  have next : (render ds last).takeWhile isBlock = [] := by
    rw [takeWhile_render isSep isBlock isBlock_of_isSep properRest gapEnd, ended]
  have fewer : ds.length ≤ cs.length := by
    have lengths := congrArg List.length cells
    have filled := List.length_pos_iff.mpr (suffix_ne_nil member)
    simp only [glue, List.length_append, List.length_map, List.length_cons] at lengths
    omega
  have after := shorter ds fewer properRest
    ((g ++ rightRun isBlock ((g, x) :: cs)).reverse ++ before) trivial
  rw [List.reverse_append, List.append_assoc, touching_word isBlock word,
    touching_gap isSep isBlock isBlock_of_isSep joint.gap joint.1, List.nil_append,
    ← List.append_assoc, ← List.reverse_append] at after
  rw [text, suffix_fires long joint member next after, rewrite_suffix long joint member cells ended]

theorem suffix_gap (gapEnd : IsGap isSep last) {g : Str} (filled : g ≠ [])
    (proper : Proper isSep ((g, x) :: cs))
    (shorter : ∀ ds, ds.length ≤ cs.length → Proper isSep ds → SuffixAgrees last ds)
    (solid : SuffixAgrees last (([], x) :: cs)) : SuffixAgrees last ((g, x) :: cs) := by
  intro before _
  have gap := (proper.head isSep).1
  have run : (x :: render cs last).takeWhile isBlock = rightRun isBlock ((g, x) :: cs) := by
    have read := takeWhile_render isSep isBlock isBlock_of_isSep (proper.solid isSep) gapEnd
    rw [onward_glued] at read
    exact read
  by_cases fires : 2 ≤ (touching isBlock before).length ∧ IsJoint g ∧
      rightRun isBlock ((g, x) :: cs) ∈ suffixes
  · obtain ⟨long, joint, member⟩ := fires
    exact suffix_match gapEnd proper shorter long joint member
  · have none := @suffix_no_match before g (x :: render cs last) gap
      (solid_head (proper.solid isSep)) (run.symm ▸ fires)
    exact Scan.gap isBlock_of_isSep gap filled (suffix_copies_gap gap none) (if_neg fires)
      (suffix_quiet _ _) (solid _ trivial)

theorem sub_suffixSpaced (proper : Proper isSep cs) (gapEnd : IsGap isSep last) : SuffixAgrees last cs :=
  Scan.whole (suffix_end gapEnd)
    (fun _ cs proper shorter => suffix_solid proper (shorter cs le_rfl (proper.tail isSep)))
    (fun _ _ _ filled => suffix_gap gapEnd filled) proper

end

end Nipoto.Normalize
