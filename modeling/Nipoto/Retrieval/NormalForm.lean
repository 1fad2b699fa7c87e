import Nipoto.Retrieval.HalfSpace.Rules
import Nipoto.Retrieval.Whitespace

/-! # The text after the half-space and white space steps

The solids of a text stay as they are. Every gap between two of them becomes a
function of the gap and of the two runs that touch it, and the gaps at the two
ends go.
-/

namespace Nipoto.Normalize

open Text Text.Regex Text.Gaps

def finalGap : Pass Char := fun l g r => tidyGap (halfSpaceGap l g r)

def gapSteps (text : Str) : Str := whitespaceSteps (halfSpaceSteps text)

theorem dropZwnj_blank {g : Str} (gap : IsGap isSep g) : Blank (dropZwnj g) := by
  intro c member
  obtain ⟨inGap, other⟩ := List.mem_filter.mp member
  have separator := gap c inGap
  rw [isSep, Bool.or_eq_true] at separator
  rcases separator with space | half
  · exact space
  · simp only [bne_iff_ne, ne_eq] at other
    exact absurd (beq_iff_eq.mp half) other

theorem halfSpaceGap_settled (l r : Str) {g : Str} (gap : IsGap isSep g) :
    Settled (halfSpaceGap l g r) := by
  unfold halfSpaceGap
  split
  · exact .inr rfl
  · exact .inl (dropZwnj_blank gap)

theorem halfSpaceGap_end {l g r : Str} (gap : IsGap isSep g) (atEnd : l = [] ∨ r = []) :
    Blank (halfSpaceGap l g r) := by
  rw [halfSpaceGap, if_neg]
  · exact dropZwnj_blank gap
  · rintro ⟨left, right, _⟩
    exact atEnd.elim left right

theorem finalGap_gap (l g r : Str) : IsGap isSep (finalGap l g r) := tidyGap_gap _

theorem mapCells_tidy (run : Str) (cs : List (Cell Char)) :
    (mapCells isBlock halfSpaceGap run cs).map (fun c => (tidyGap c.1, c.2)) =
      mapCells isBlock finalGap run cs := by
  induction cs generalizing run with
  | nil => rfl
  | cons c cs ih => simp only [mapCells, List.map_cons, ih, finalGap]

theorem mapCells_settled {cs : List (Cell Char)} (proper : Proper isSep cs) (run : Str) :
    ∀ c ∈ mapCells isBlock halfSpaceGap run cs, Settled c.1 := by
  induction cs generalizing run with
  | nil => simp [mapCells]
  | cons c cs ih =>
      intro d member
      rcases List.mem_cons.mp member with rfl | later
      · exact halfSpaceGap_settled _ _ (proper.head isSep).1
      · exact ih (proper.tail isSep) _ d later

/-- The run of word characters that a first solid begins. -/
def startRun (x : Char) : Str := leftStep isBlock [] [] x

theorem startRun_gap (g : Str) (x : Char) : leftStep isBlock [] g x = startRun x := by
  simp [startRun, leftStep]

theorem gapSteps_render {g last : Str} {x : Char} {cs : List (Cell Char)}
    (proper : Proper isSep ((g, x) :: cs)) (gapEnd : IsGap isSep last) :
    gapSteps (render ((g, x) :: cs) last) =
      x :: render (mapCells isBlock finalGap (startRun x) cs) [] := by
  have first : Blank (halfSpaceGap [] g (rightRun isBlock ((g, x) :: cs))) :=
    halfSpaceGap_end (proper.head isSep).1 (.inl rfl)
  have ending : Blank (halfSpaceGap (lastRun isBlock [] ((g, x) :: cs)) last []) :=
    halfSpaceGap_end gapEnd (.inr rfl)
  have cells := mapCells_proper isSep isBlock halfSpaceGap_gap proper []
  rw [gapSteps, halfSpaceSteps_render proper gapEnd, rewrite]
  rw [mapCells] at cells ⊢
  rw [whitespaceSteps_render cells first (mapCells_settled (proper.tail isSep) _) ending,
    mapCells_tidy, startRun_gap]

theorem final_proper {g : Str} {x : Char} {cs : List (Cell Char)} (proper : Proper isSep ((g, x) :: cs)) :
    Proper isSep (([], x) :: mapCells isBlock finalGap (startRun x) cs) :=
  .cons isSep (by simp [IsGap]) (proper.head isSep).2
    (mapCells_proper isSep isBlock (fun l g r _ => finalGap_gap l g r) (proper.tail isSep) _)

theorem gapSteps_blank {t : Str} (gap : IsGap isSep t) : gapSteps t = [] := by
  have ending : Blank (halfSpaceGap (lastRun isBlock [] []) t []) := halfSpaceGap_end gap (.inr rfl)
  have whole := @halfSpaceSteps_render [] t (by simp [Proper]) gap
  rw [render] at whole
  rw [gapSteps, whole]
  exact whitespaceSteps_blank ending

/-- Where the character-level steps make nothing of nothing, the check for an empty text
    is not needed. -/
theorem normalize_eq_gapSteps {nfkc : Str → Str} (empty : characterSteps nfkc [] = []) (t : Str) :
    normalize nfkc t = gapSteps (characterSteps nfkc t) := by
  rw [normalize]
  split
  · rename_i nothing
    rw [nothing, empty, gapSteps_blank (by simp [IsGap])]
  · rfl

/-- Two texts with one first solid meet exactly when all their inner gaps do. -/
theorem gapSteps_eq_iff {g g' last last' : Str} {x : Char} {cs ds : List (Cell Char)}
    (proper : Proper isSep ((g, x) :: cs)) (gapEnd : IsGap isSep last)
    (proper' : Proper isSep ((g', x) :: ds)) (gapEnd' : IsGap isSep last') :
    gapSteps (render ((g, x) :: cs) last) = gapSteps (render ((g', x) :: ds) last') ↔
      mapCells isBlock finalGap (startRun x) cs = mapCells isBlock finalGap (startRun x) ds := by
  have left := (final_proper proper).tail isSep
  have right := (final_proper proper').tail isSep
  rw [gapSteps_render proper gapEnd, gapSteps_render proper' gapEnd', List.cons.injEq, and_iff_right rfl,
    render_eq_iff isSep left right]

end Nipoto.Normalize
