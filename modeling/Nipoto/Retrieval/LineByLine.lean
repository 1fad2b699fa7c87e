import Nipoto.Retrieval.Soundness

/-! # Normalisation line by line

For every step a line feed is like the end of the text, so the lines of a text
can be normalised one by one. Only empty lines come and go.
-/

namespace Nipoto.Normalize

open Text Text.Gaps

/-- The lines that are not empty. -/
def filledLines (t : Str) : List Str := (lines t).filter (· ≠ [])

theorem filledLines_break (a b : Str) : filledLines (a ++ '\n' :: b) = filledLines a ++ filledLines b := by
  rw [filledLines, lines_append, List.filter_append, filledLines, filledLines]

theorem filledLines_breaks (a b : Str) (n : Nat) :
    filledLines (a ++ (List.replicate (n + 1) '\n' ++ b)) = filledLines a ++ filledLines b := by
  induction n generalizing a with
  | zero => exact filledLines_break a b
  | succ n ih =>
      have rest := ih []
      rw [List.replicate_succ, List.cons_append, filledLines_break]
      exact congrArg _ rest

theorem filledLines_single {l : Str} (single : '\n' ∉ l) : filledLines l = if l = [] then [] else [l] := by
  rw [filledLines, lines_whole single]
  by_cases empty : l = [] <;> simp [empty]

theorem not_half_of_break {l g r : Str} (member : '\n' ∈ g) : ¬ IsHalfSpace l g r := by
  rintro ⟨-, -, attached | half | joint⟩
  · exact absurd (attached.1 ▸ member) (by simp)
  · exact absurd (half.2 '\n' member) (by decide)
  · exact absurd (joint.1.2 '\n' member) (by decide)

theorem finalGap_of_break {l g r : Str} (member : '\n' ∈ g) : finalGap l g r = keptBreaks (dropZwnj g) := by
  rw [finalGap_of_blank (not_half_of_break member), blankGap, if_pos (break_mem_dropZwnj.mpr member)]

theorem finalGap_break {l g r : Str} (member : '\n' ∈ g) : ∃ n, finalGap l g r = List.replicate (n + 1) '\n' := by
  obtain ⟨n, breaks⟩ := keptBreaks_replicate (dropZwnj g)
  rw [finalGap_of_break member]
  cases n with
  | zero => exact absurd breaks (keptBreaks_ne_nil (break_mem_dropZwnj.mpr member))
  | succ n => exact ⟨n, breaks⟩

theorem gap_break {g h : Str} (left : IsGap isSep g) (right : IsGap isSep h) : IsGap isSep (g ++ '\n' :: h) := by
  intro c member
  rcases List.mem_append.mp member with first | second
  · exact left c first
  · rcases List.mem_cons.mp second with rfl | second
    · decide
    · exact right c second

theorem proper_break {g h : Str} {y : Char} {ds : List (Cell Char)} (left : IsGap isSep g)
    (right : Proper isSep ((h, y) :: ds)) : Proper isSep ((g ++ '\n' :: h, y) :: ds) := by
  exact .cons isSep (gap_break left (right.head isSep).1) (right.head isSep).2 (right.tail isSep)

/-- Cells that a line feed parts are rewritten on their own. -/
theorem gapSteps_parted {g last last' h : Str} {x y : Char} {cs ds : List (Cell Char)}
    (left : Proper isSep ((g, x) :: cs)) (leftEnd : IsGap isSep last) (right : Proper isSep ((h, y) :: ds))
    (rightEnd : IsGap isSep last') :
    ∃ n, gapSteps (render ((g, x) :: cs) last ++ '\n' :: render ((h, y) :: ds) last') =
      gapSteps (render ((g, x) :: cs) last) ++ (List.replicate (n + 1) '\n' ++ gapSteps (render ((h, y) :: ds) last')) := by
  obtain ⟨n, breaks⟩ := @finalGap_break (lastRun isBlock (startRun x) cs) (last ++ '\n' :: h)
    (rightRun isBlock ((last ++ '\n' :: h, y) :: ds)) (by simp)
  have whole : render ((g, x) :: cs) last ++ '\n' :: render ((h, y) :: ds) last' =
      render ((g, x) :: (cs ++ (last ++ '\n' :: h, y) :: ds)) last' := by
    rw [← List.cons_append, render_append, render_last ((g, x) :: cs) last,
      render_last ((g, x) :: cs) (render _ _)]
    simp [render]
  have proper : Proper isSep ((g, x) :: (cs ++ (last ++ '\n' :: h, y) :: ds)) :=
    left.append isSep (proper_break leftEnd right)
  refine ⟨n, ?_⟩
  rw [whole, gapSteps_render proper rightEnd, gapSteps_render left leftEnd, gapSteps_render right rightEnd,
    mapCells_append (by simp), breaks, startRun_gap, render_append, render_last (mapCells _ _ _ cs)]
  simp [render]

/-- The lines of two texts with a line feed between them are those of both. -/
theorem gapSteps_break (a b : Str) :
    filledLines (gapSteps (a ++ '\n' :: b)) = filledLines (gapSteps a) ++ filledLines (gapSteps b) := by
  induction a using text_cases isSep with
  | gap a gap =>
      rw [gapSteps_blank gap]
      induction b using text_cases isSep with
      | gap b gapNext =>
          rw [gapSteps_blank (gap_break gap gapNext), gapSteps_blank gapNext]
          rfl
      | cells h y ds last right rightEnd =>
          have whole : a ++ '\n' :: render ((h, y) :: ds) last = render ((a ++ '\n' :: h, y) :: ds) last := by
            simp [render]
          rw [whole, gapSteps_render (proper_break gap right) rightEnd, gapSteps_render right rightEnd]
          rfl
  | cells g x cs last left leftEnd =>
      induction b using text_cases isSep with
      | gap b gapNext =>
          have whole : render ((g, x) :: cs) last ++ '\n' :: b = render ((g, x) :: cs) (last ++ '\n' :: b) := by
            rw [render_last _ last, render_last _ (last ++ _), List.append_assoc]
          rw [whole, gapSteps_render left (gap_break leftEnd gapNext), gapSteps_render left leftEnd,
            gapSteps_blank gapNext]
          exact (List.append_nil _).symm
      | cells h y ds last' right rightEnd =>
          obtain ⟨n, parted⟩ := gapSteps_parted left leftEnd right rightEnd
          rw [parted, filledLines_breaks]

theorem break_of_finalGap {l g r : Str} (member : '\n' ∈ finalGap l g r) : '\n' ∈ g := by
  by_cases half : IsHalfSpace l g r
  · rw [finalGap_of_half half] at member
    exact absurd (List.mem_singleton.mp member) (by decide)
  · by_contra single
    have none : '\n' ∉ dropZwnj g := fun kept => single (List.mem_filter.mp kept).1
    rw [finalGap_of_blank half, blankGap, if_neg none] at member
    split at member
    · exact absurd member List.not_mem_nil
    · exact absurd (List.mem_singleton.mp member) (by decide)

theorem gapSteps_single {t : Str} (single : '\n' ∉ t) : '\n' ∉ gapSteps t := by
  have inLine : ∀ {x : Char}, isSep x = false → x ≠ '\n' := by
    rintro x solid rfl
    exact absurd solid (by decide)
  induction t using text_cases isSep with
  | gap t gap =>
      rw [gapSteps_blank gap]
      exact List.not_mem_nil
  | cells g x cs last proper gapEnd =>
      rw [gapSteps_render proper gapEnd]
      intro member
      cases member with
      | head => exact inLine (proper.head isSep).2 rfl
      | tail _ later =>
          obtain ⟨d, mapped, place⟩ := (mem_render.mp later).resolve_right (by simp)
          obtain ⟨e, known, same, l, r, gap⟩ := mem_mapCells isBlock mapped
          have old : e ∈ (g, x) :: cs := List.mem_cons_of_mem _ known
          cases place with
          | inl inGap => exact single (mem_render.mpr (.inl ⟨e, old, .inl (break_of_finalGap (gap ▸ inGap))⟩))
          | inr solid => exact inLine (proper e old).2 (same.trans solid.symm)

/-- A line feed takes no part in NFKC and comes from nothing else. -/
structure ActsByLine (nfkc : Str → Str) : Prop where
  empty : nfkc [] = []
  across : ∀ a b, nfkc (a ++ '\n' :: b) = nfkc a ++ '\n' :: nfkc b
  single : ∀ l, '\n' ∉ l → '\n' ∉ nfkc l

variable {nfkc : Str → Str}

theorem foldChar_single {c : Char} (other : c ≠ '\n') : '\n' ∉ foldChar c := by
  obtain gone | same | ⟨d, target, same⟩ := foldChar_folded c
  · simp [gone]
  · simp [same, Ne.symm other]
  · rw [same]
    exact (by decide : ∀ d ∈ foldTargets, '\n' ∉ [d]) d target

theorem ActsByLine.characterSteps_break (byLine : ActsByLine nfkc) (a b : Str) :
    characterSteps nfkc (a ++ '\n' :: b) = characterSteps nfkc a ++ '\n' :: characterSteps nfkc b := by
  have fixed : foldChar '\n' = ['\n'] := by decide
  simp only [characterSteps_eq, byLine.across, List.flatMap_append, List.flatMap_cons, fixed, List.singleton_append]

theorem ActsByLine.characterSteps_single (byLine : ActsByLine nfkc) {l : Str} (single : '\n' ∉ l) :
    '\n' ∉ characterSteps nfkc l := by
  rw [characterSteps_eq]
  intro member
  obtain ⟨c, known, inFold⟩ := List.mem_flatMap.mp member
  apply foldChar_single _ inFold
  rintro rfl
  exact byLine.single l single known

theorem ActsByLine.normalize_eq (byLine : ActsByLine nfkc) (t : Str) :
    normalize nfkc t = gapSteps (characterSteps nfkc t) :=
  normalize_eq_gapSteps (by rw [characterSteps_eq, byLine.empty]; rfl) t

/-- The lines of a normalised text are its lines, normalised one by one. -/
theorem normalize_lines (byLine : ActsByLine nfkc) (t : Str) :
    (lines (normalize nfkc t)).filter (· ≠ []) = ((lines t).map (normalize nfkc)).filter (· ≠ []) := by
  have whole : filledLines (normalize nfkc t) = ((lines t).map (normalize nfkc)).filter (· ≠ []) := by
    induction t using line_induction with
    | single t noBreak =>
        have single : '\n' ∉ normalize nfkc t := by
          rw [byLine.normalize_eq]
          exact gapSteps_single (byLine.characterSteps_single noBreak)
        rw [filledLines_single single, lines_whole noBreak]
        by_cases empty : normalize nfkc t = [] <;> simp [empty]
    | parted a b first second =>
        rw [byLine.normalize_eq] at first second ⊢
        rw [byLine.characterSteps_break, gapSteps_break, first, second, lines_append, List.map_append, List.filter_append]
  exact whole

theorem normalize_lines_two :
    ActsByLine (fun t => t) ∧
      (lines (normalize (fun t => t) "می شود\n\n  کتاب ها".toList)).filter (· ≠ []) =
        ((lines "می شود\n\n  کتاب ها".toList).map (normalize fun t => t)).filter (· ≠ []) :=
  ⟨⟨rfl, fun _ _ => rfl, fun _ single => single⟩,
    normalize_lines ⟨rfl, fun _ _ => rfl, fun _ single => single⟩ "می شود\n\n  کتاب ها".toList⟩

end Nipoto.Normalize
