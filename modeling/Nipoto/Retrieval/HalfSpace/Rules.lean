import Nipoto.Retrieval.HalfSpace.Spaced
import Nipoto.Retrieval.HalfSpace.Split
import Nipoto.Retrieval.HalfSpace.Stray

/-! # The half-space steps as one pass

All five substitutions together decide, for every gap and from the two runs that
touch it alone, whether a single ZWNJ stands there; any other ZWNJ goes.
-/

namespace Nipoto.Normalize

open Text Text.Regex Text.Gaps

/-- The gaps at which a half-space stands in the end. -/
def IsHalfSpace (l g r : Str) : Prop :=
  l ≠ [] ∧ r ≠ [] ∧
    ((g = [] ∧ l ∈ prefixes ∧ r ∈ verbStems) ∨ AllZwnj g ∨
      (IsJoint g ∧ (l ∈ prefixes ∨ (2 ≤ l.length ∧ r ∈ suffixes))))

instance (l g r : Str) : Decidable (IsHalfSpace l g r) := inferInstanceAs (Decidable (_ ∧ _))

def halfSpaceGap : Pass Char := fun l g r => if IsHalfSpace l g r then [zwnj] else dropZwnj g

/-- The two prefix rules, one after the other. -/
def prefixGap : Pass Char := fun l g r => attachedGap l (spacedGap l g r) r

theorem spacedGap_keeps : KeepsRuns spacedGap := by
  intro l g r _ _
  unfold spacedGap
  split
  · rename_i fires
    simp [fires.2.1.1]
  · rfl

theorem suffixGap_keeps : KeepsRuns suffixGap := by
  intro l g r _ _
  unfold suffixGap
  split
  · rename_i fires
    simp [fires.2.1.1]
  · rfl

theorem spacedGap_gap (l g r : Str) (gap : IsGap isSep g) : IsGap isSep (spacedGap l g r) := by
  unfold spacedGap
  split
  · exact zwnj_gap
  · exact gap

theorem attachedGap_gap (l g r : Str) (gap : IsGap isSep g) : IsGap isSep (attachedGap l g r) := by
  unfold attachedGap
  split
  · exact zwnj_gap
  · exact gap

theorem suffixGap_gap (l g r : Str) (gap : IsGap isSep g) : IsGap isSep (suffixGap l g r) := by
  unfold suffixGap
  split
  · exact zwnj_gap
  · exact gap

theorem prefixGap_gap (l g r : Str) (gap : IsGap isSep g) : IsGap isSep (prefixGap l g r) :=
  attachedGap_gap _ _ _ (spacedGap_gap _ _ _ gap)

theorem halfSpaceGap_gap (l g r : Str) (gap : IsGap isSep g) : IsGap isSep (halfSpaceGap l g r) := by
  unfold halfSpaceGap
  split
  · exact zwnj_gap
  · exact dropZwnj_gap gap

theorem prefixGap_nil (l r : Str) :
    prefixGap l [] r = if l ∈ prefixes ∧ r ∈ verbStems then [zwnj] else [] := by
  simp [prefixGap, spaced_quiet, attachedGap]

theorem prefixGap_of_gap {g : Str} (nonempty : g ≠ []) (l r : Str) :
    prefixGap l g r = spacedGap l g r := by
  have filled : spacedGap l g r ≠ [] := by
    unfold spacedGap
    split
    · simp
    · exact nonempty
  simp [prefixGap, attachedGap, filled]

theorem prefixGap_splits : SplitsAttached prefixGap := by
  intro l g r _ _
  cases g with
  | nil =>
      rw [prefixGap_nil]
      split <;> simp_all
  | cons x g =>
      rw [prefixGap_of_gap (by simp)]
      unfold spacedGap
      split <;> simp

theorem sub_prefixes {cs : List (Cell Char)} {last : Str} (proper : Proper isSep cs)
    (gapEnd : IsGap isSep last) :
    sub prefixAttached (fun m => m.group 1 ++ [zwnj] ++ m.group 2)
        (sub prefixSpaced (fun m => m.group 1 ++ [zwnj]) (render cs last)) =
      rewrite isBlock prefixGap [] cs last := by
  have spaced := sub_prefixSpaced proper gapEnd [] (fun inside => absurd rfl inside)
  have attached := sub_prefixAttached (mapCells_proper isSep isBlock spacedGap_gap proper [])
    (spacedGap_gap (lastRun isBlock [] cs) last [] gapEnd) [] (fun inside => absurd rfl inside)
  rw [touching_nil] at spaced attached
  rw [sub, sub, spaced, rewrite, attached, rewrite_mapCells isBlock spacedGap_keeps]
  rfl

theorem sub_suffix_stray {cs : List (Cell Char)} {last : Str} (proper : Proper isSep cs)
    (gapEnd : IsGap isSep last) :
    sub zwnjAtEdge (fun _ => []) (sub zwnjRun (fun _ => [zwnj])
        (sub suffixSpaced (fun m => [zwnj] ++ m.group 1) (render cs last))) =
      rewrite isBlock (fun l g r => strayGap l (suffixGap l g r) r) [] cs last := by
  have suffix := sub_suffixSpaced proper gapEnd [] trivial
  have stray := @sub_stray (mapCells isBlock suffixGap [] cs)
    (suffixGap (lastRun isBlock [] cs) last [])
    (mapCells_proper isSep isBlock suffixGap_gap proper []) (suffixGap_gap _ _ _ gapEnd)
  rw [touching_nil] at suffix
  rw [sub.eq_1 suffixSpaced, suffix, rewrite, stray, rewrite_mapCells isBlock suffixGap_keeps]

theorem allZwnj_single : AllZwnj [zwnj] := ⟨by simp, by simp⟩

theorem AllZwnj.joint {g : Str} (h : AllZwnj g) : IsJoint g := by
  refine ⟨h.1, fun x member => ?_⟩
  rw [h.2 x member]
  decide

theorem strayGap_between {l r : Str} (left : l ≠ []) (right : r ≠ []) : strayGap l [zwnj] r = [zwnj] :=
  if_pos ⟨left, right, allZwnj_single⟩

/-- A half-space that a prefix rule has put stays. -/
theorem half_stays {l r : Str} (left : l ≠ []) (right : r ≠ []) : strayGap l (suffixGap l [zwnj] r) r = [zwnj] := by
  have stays : suffixGap l [zwnj] r = [zwnj] := by simp [suffixGap]
  rw [stays, strayGap_between left right]

theorem rules_agree (l g r l₂ r₂ : Str) (left : LeftAfter l (through g r) l₂)
    (right : RightAfter (through g l) r r₂) :
    strayGap l₂ (suffixGap l₂ (prefixGap l g r) r₂) r₂ = halfSpaceGap l g r := by
  have leftNil := left.nil_iff
  have rightNil := right.nil_iff
  cases g with
  | nil =>
      rw [prefixGap_nil, halfSpaceGap]
      by_cases fires : l ∈ prefixes ∧ r ∈ verbStems
      · have leftWord : l ≠ [] := prefix_ne_nil fires.1
        have rightWord : r ≠ [] := stem_ne_nil fires.2
        rw [if_pos fires, if_pos ⟨leftWord, rightWord, .inl ⟨rfl, fires⟩⟩,
          half_stays (leftNil.not.mpr leftWord) (rightNil.not.mpr rightWord)]
      · rw [if_neg fires, suffix_quiet, if_neg]
        · simp [strayGap, AllZwnj, dropZwnj]
        · rintro ⟨_, _, attached | pure | joint⟩
          · exact fires attached.2
          · exact pure.1 rfl
          · exact joint.1.1 rfl
  | cons x g =>
      simp only [through, List.isEmpty_cons, Bool.false_eq_true, if_false] at left right
      rw [prefixGap_of_gap (by simp), spacedGap, halfSpaceGap]
      by_cases spaced : l ∈ prefixes ∧ IsJoint (x :: g) ∧ r ≠ []
      · obtain ⟨hp, joint, rightWord⟩ := spaced
        have leftWord := prefix_ne_nil hp
        rw [if_pos ⟨hp, joint, rightWord⟩,
          if_pos ⟨leftWord, rightWord, .inr (.inr ⟨joint, .inl hp⟩)⟩,
          half_stays (leftNil.not.mpr leftWord) (rightNil.not.mpr rightWord)]
      · rw [if_neg spaced, suffixGap]
        by_cases suffix : 2 ≤ l₂.length ∧ IsJoint (x :: g) ∧ r₂ ∈ suffixes
        · have leftLong := left.long_iff.mp suffix.1
          have listed := right.suffix_iff.mp suffix.2.2
          have leftWord : l ≠ [] := List.length_pos_iff.mp (by omega)
          have rightWord : r ≠ [] := suffix_ne_nil listed
          rw [if_pos suffix,
            if_pos ⟨leftWord, rightWord, .inr (.inr ⟨suffix.2.1, .inr ⟨leftLong, listed⟩⟩)⟩,
            strayGap_between (leftNil.not.mpr leftWord) (rightNil.not.mpr rightWord)]
        · rw [if_neg suffix, strayGap]
          refine if_congr ?_ rfl rfl
          constructor
          · rintro ⟨leftWord, rightWord, pure⟩
            exact ⟨leftNil.not.mp leftWord, rightNil.not.mp rightWord, .inr (.inl pure)⟩
          · rintro ⟨leftWord, rightWord, attached | pure | ⟨joint, hp | ⟨long, listed⟩⟩⟩
            · exact absurd attached.1 (by simp)
            · exact ⟨leftNil.not.mpr leftWord, rightNil.not.mpr rightWord, pure⟩
            · exact absurd ⟨hp, joint, rightWord⟩ spaced
            · exact absurd ⟨left.long_iff.mpr long, joint, right.suffix_iff.mpr listed⟩ suffix

/-- What the half-space steps make of a text. -/
theorem halfSpaceSteps_render {cs : List (Cell Char)} {last : Str} (proper : Proper isSep cs)
    (gapEnd : IsGap isSep last) :
    halfSpaceSteps (render cs last) = rewrite isBlock halfSpaceGap [] cs last := by
  have prefixed := sub_prefixes proper gapEnd
  have rest := @sub_suffix_stray (mapCells isBlock prefixGap [] cs)
    (prefixGap (lastRun isBlock [] cs) last [])
    (mapCells_proper isSep isBlock prefixGap_gap proper []) (prefixGap_gap _ _ _ gapEnd)
  simp only [halfSpaceSteps]
  rw [prefixed, rewrite, rest, rewrite_after prefixGap_splits rules_agree]

end Nipoto.Normalize
