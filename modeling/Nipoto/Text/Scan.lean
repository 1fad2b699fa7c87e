import Nipoto.Text.Gaps
import Nipoto.Text.Regex

/-! # A substitution as a pass over gaps

A substitution scans a text from left to right, a pass answers for each gap of
its cells. These are the steps in which the two agree as long as no match begins:
at a gap, at a solid and at the end of the text.
-/

namespace Nipoto.Text.Scan

open Regex Gaps

variable {sep word : Char → Bool} (apart : ∀ c, sep c = true → word c = false)
  {pattern : Pattern} {repl : Cursor → Str} {h : Pass Char} {before g last : Str} {x : Char}
  {cs : List (Cell Char)}

/-- A solid at which no match begins is copied, and its run goes on. -/
theorem solid (quiet : h (touching word before) [] (rightRun word (([], x) :: cs)) = [])
    (none : pattern.matchAt before (x :: render cs last) = none)
    (later : subFrom pattern repl 0 (x :: before) (render cs last) =
      rewrite word h (touching word (x :: before)) cs last) :
    subFrom pattern repl 0 before (x :: render cs last) =
      rewrite word h (touching word before) (([], x) :: cs) last := by
  have tracked : touching word (x :: before) = leftStep word (touching word before) [] x := by
    cases inWord : word x with
    | false => simp [touching, leftStep, inWord]
    | true => simp [touching, leftStep, inWord]
  rw [subFrom_of_none none, later, tracked, rewrite_cons, quiet]
  rfl

include apart in
/-- A gap at which no match begins and which the pass keeps is copied. -/
theorem gap (isGap : IsGap sep g) (nonempty : g ≠ [])
    (copied : subFrom pattern repl 0 before (g ++ x :: render cs last) =
      g ++ subFrom pattern repl 0 (g.reverse ++ before) (x :: render cs last))
    (kept : h (touching word before) g (rightRun word ((g, x) :: cs)) = g)
    (quiet : h [] [] (rightRun word (([], x) :: cs)) = [])
    (later : subFrom pattern repl 0 (g.reverse ++ before) (x :: render cs last) =
      rewrite word h (touching word (g.reverse ++ before)) (([], x) :: cs) last) :
    subFrom pattern repl 0 before (render ((g, x) :: cs) last) =
      rewrite word h (touching word before) ((g, x) :: cs) last := by
  rw [touching_gap sep word apart isGap nonempty] at later
  have restart : leftStep word (touching word before) g x = leftStep word [] [] x := by
    simp [leftStep, nonempty]
  rw [render, copied, later, rewrite_cons, rewrite_cons, kept, quiet, restart]
  rfl

theorem finish (copied : subFrom pattern repl 0 before last = last)
    (kept : h (touching word before) last [] = last) :
    subFrom pattern repl 0 before (render [] last) = rewrite word h (touching word before) [] last := by
  simp only [render, rewrite, mapCells, lastRun, copied, kept]

theorem copy_all (never : ∀ c ∈ g, ∀ before rest, pattern.matchAt before (c :: rest) = none) :
    subFrom pattern repl 0 before g = g := by
  have copied := @subFrom_pass pattern repl g never before []
  simpa using copied

/-- The two agree on a text from every position where `Calm` lets the scan stand. -/
def Agrees (word : Char → Bool) (pattern : Pattern) (repl : Cursor → Str) (h : Pass Char)
    (Calm : Str → List (Cell Char) → Prop) (last : Str) (cs : List (Cell Char)) : Prop :=
  ∀ before, Calm before cs →
    subFrom pattern repl 0 before (render cs last) = rewrite word h (touching word before) cs last

/-- A match may cover many cells, so each step may use the agreement on every
    shorter text. -/
theorem whole {Calm : Str → List (Cell Char) → Prop} (atEnd : Agrees word pattern repl h Calm last [])
    (atSolid : ∀ x cs, Proper sep (([], x) :: cs) →
      (∀ ds, ds.length ≤ cs.length → Proper sep ds → Agrees word pattern repl h Calm last ds) →
      Agrees word pattern repl h Calm last (([], x) :: cs))
    (atGap : ∀ g x cs, g ≠ [] → Proper sep ((g, x) :: cs) →
      (∀ ds, ds.length ≤ cs.length → Proper sep ds → Agrees word pattern repl h Calm last ds) →
      Agrees word pattern repl h Calm last (([], x) :: cs) →
      Agrees word pattern repl h Calm last ((g, x) :: cs))
    (proper : Proper sep cs) : Agrees word pattern repl h Calm last cs := by
  induction size : cs.length using Nat.strong_induction_on generalizing cs with
  | h n ih =>
      cases cs with
      | nil => exact atEnd
      | cons c cs =>
          obtain ⟨g, x⟩ := c
          have shorter : ∀ ds, ds.length ≤ cs.length → Proper sep ds →
              Agrees word pattern repl h Calm last ds := by
            intro ds fewer proper
            apply ih ds.length _ proper rfl
            simp only [List.length_cons] at size
            omega
          have solid := atSolid x cs (proper.solid sep) shorter
          cases g with
          | nil => exact solid
          | cons s g => exact atGap (s :: g) x cs (by simp) proper shorter solid

end Nipoto.Text.Scan
