import Nipoto.Retrieval.HalfSpace.Attached

/-! # Passes after a word was split

Splitting an attached prefix is the one rule that ends a run of word characters
in its middle, so a later pass sees other runs than the text had. What it sees
instead is a listed stem on the left and a bare prefix on the right, and none of
the rules tells these apart from the whole word.
-/

namespace Nipoto.Normalize

open Text Text.Gaps

/-- Two word characters come apart only where they were, or where a whole word
    is a prefix and a listed stem. -/
def SplitsAttached (h : Pass Char) : Prop :=
  ∀ l g r, l ≠ [] → r ≠ [] → (h l g r = [] ↔ g = [] ∧ ¬ (l ∈ prefixes ∧ r ∈ verbStems))

/-- What became of a run before a gap; `rest` is the part of its word after the gap. -/
def LeftAfter (l rest l₂ : Str) : Prop :=
  l₂ = l ∨ ∃ p ∈ prefixes, l = p ++ l₂ ∧ l₂ ≠ [] ∧ l₂ ++ rest ∈ verbStems

/-- What became of a run after a gap; `l` is the part of its word before the gap. -/
def RightAfter (l r r₂ : Str) : Prop :=
  r₂ = r ∨ ∃ s ∈ verbStems, r₂ ≠ [] ∧ l ++ r₂ ∈ prefixes ∧ r = r₂ ++ s

/-- The part of a word on one side of a gap, as seen from the other. -/
def through (g run : Str) : Str := if g.isEmpty then run else []

theorem LeftAfter.nil_iff {l rest l₂ : Str} (h : LeftAfter l rest l₂) : l₂ = [] ↔ l = [] := by
  rcases h with rfl | ⟨p, hp, rfl, nonempty, _⟩
  · rfl
  · simp [nonempty]

theorem LeftAfter.long_iff {l l₂ : Str} (h : LeftAfter l [] l₂) : 2 ≤ l₂.length ↔ 2 ≤ l.length := by
  rcases h with rfl | ⟨p, hp, rfl, nonempty, stem⟩
  · rfl
  · rw [List.append_nil] at stem
    have long := stem_long stem
    simp only [List.length_append]
    omega

theorem RightAfter.nil_iff {l r r₂ : Str} (h : RightAfter l r r₂) : r₂ = [] ↔ r = [] := by
  rcases h with rfl | ⟨s, hs, nonempty, _, rfl⟩
  · rfl
  · simp [nonempty]

theorem RightAfter.suffix_iff {r r₂ : Str} (h : RightAfter [] r r₂) : r₂ ∈ suffixes ↔ r ∈ suffixes := by
  rcases h with rfl | ⟨s, hs, nonempty, hp, rfl⟩
  · rfl
  · rw [List.nil_append] at hp
    constructor
    · intro member
      exact absurd (List.prefix_refl r₂) (prefixEnd_begins_no_suffix r₂ (prefix_mem_ends hp) r₂ member)
    · intro member
      exact absurd (List.prefix_append r₂ s) (prefixEnd_begins_no_suffix r₂ (prefix_mem_ends hp) _ member)

variable {h k d : Pass Char}

theorem onward_cons (g : Str) (x : Char) (cs : List (Cell Char)) :
    onward isBlock ((g, x) :: cs) = through g (rightRun isBlock ((g, x) :: cs)) := by
  simp [onward, through]

theorem onward_mapCells (splits : SplitsAttached h) {w : Str} (started : w ≠ [])
    (cs : List (Cell Char)) :
    onward isBlock (mapCells isBlock h w cs) = onward isBlock cs ∨
      ∃ s ∈ verbStems, w ++ onward isBlock (mapCells isBlock h w cs) ∈ prefixes ∧
        onward isBlock cs = onward isBlock (mapCells isBlock h w cs) ++ s := by
  induction cs generalizing w with
  | nil => exact .inl rfl
  | cons c cs ih =>
      obtain ⟨g, x⟩ := c
      cases inWord : isBlock x with
      | false =>
          left
          simp [mapCells, onward_cons, rightRun_cons, inWord, through]
      | true =>
          have run : rightRun isBlock ((g, x) :: cs) = x :: onward isBlock cs := by
            simp [rightRun_cons, inWord]
          have parts := splits w g (rightRun isBlock ((g, x) :: cs)) started (by simp [run])
          by_cases joined : h w g (rightRun isBlock ((g, x) :: cs)) = []
          · obtain ⟨rfl, _⟩ := parts.mp joined
            have step : leftStep isBlock w [] x = w ++ [x] := by simp [leftStep, inWord]
            have tail := @ih (w ++ [x]) (by simp)
            rw [onward_cons, run, mapCells, joined, onward_cons, rightRun_cons, inWord, if_pos rfl, step]
            rcases tail with same | ⟨s, hs, hp, split⟩
            · left
              simp [through, same]
            · right
              refine ⟨s, hs, by simpa [through] using hp, ?_⟩
              simp only [through, List.isEmpty_nil, if_true, List.cons_append, split]
          · have apart : onward isBlock (mapCells isBlock h w ((g, x) :: cs)) = [] := by
              rw [mapCells, onward_of_gap isBlock joined]
            rw [apart]
            cases g with
            | cons y g => exact .inl (onward_of_gap isBlock (by simp) x cs).symm
            | nil =>
                have fires : w ∈ prefixes ∧ rightRun isBlock (([], x) :: cs) ∈ verbStems := by
                  by_contra quiet
                  exact joined (parts.mpr ⟨rfl, quiet⟩)
                exact .inr ⟨_, fires.2, by simpa using fires.1, onward_glued isBlock x cs⟩

theorem rightRun_after (splits : SplitsAttached h) (l g : Str) (x : Char) (cs : List (Cell Char)) :
    RightAfter (through g l) (rightRun isBlock ((g, x) :: cs))
      (rightRun isBlock (mapCells isBlock h l ((g, x) :: cs))) := by
  rw [mapCells, rightRun_cons, rightRun_cons]
  cases inWord : isBlock x with
  | false => exact .inl rfl
  | true =>
      have step : leftStep isBlock l g x = through g l ++ [x] := by
        simp only [leftStep, inWord, if_true, through]
        split <;> rfl
      rw [if_pos rfl, if_pos rfl, step]
      rcases @onward_mapCells h splits (through g l ++ [x]) (by simp) cs with same | ⟨s, hs, hp, split⟩
      · exact .inl (by rw [same])
      · refine .inr ⟨s, hs, by simp, by simpa using hp, ?_⟩
        rw [List.cons_append, ← split]

theorem leftStep_after (splits : SplitsAttached h) {l l₂ : Str} {g : Str} {x : Char}
    {cs : List (Cell Char)} (left : LeftAfter l (onward isBlock ((g, x) :: cs)) l₂) :
    LeftAfter (leftStep isBlock l g x) (onward isBlock cs)
      (leftStep isBlock l₂ (h l g (rightRun isBlock ((g, x) :: cs))) x) := by
  cases inWord : isBlock x with
  | false => exact .inl (by simp [leftStep, inWord])
  | true =>
      have run : rightRun isBlock ((g, x) :: cs) = x :: onward isBlock cs := by
        simp [rightRun_cons, inWord]
      cases l with
      | nil =>
          obtain rfl := left.nil_iff.mpr rfl
          exact .inl (by simp [leftStep, inWord])
      | cons a l =>
          have parts := splits (a :: l) g (rightRun isBlock ((g, x) :: cs)) (by simp) (by simp [run])
          by_cases joined : h (a :: l) g (rightRun isBlock ((g, x) :: cs)) = []
          · obtain ⟨rfl, _⟩ := parts.mp joined
            rw [joined]
            simp only [leftStep, inWord, if_true, List.isEmpty_nil]
            rw [onward_cons, run] at left
            rcases left with rfl | ⟨p, hp, split, nonempty, stem⟩
            · exact .inl rfl
            · refine .inr ⟨p, hp, ?_, by simp, ?_⟩
              · rw [← List.append_assoc, ← split]
              · simpa [through] using stem
          · have restart : leftStep isBlock l₂ (h (a :: l) g (rightRun isBlock ((g, x) :: cs))) x = [x] := by
              simp [leftStep, inWord, joined]
            rw [restart]
            cases g with
            | cons y g => exact .inl (by simp [leftStep, inWord])
            | nil =>
                have fires : a :: l ∈ prefixes ∧ rightRun isBlock (([], x) :: cs) ∈ verbStems := by
                  by_contra quiet
                  exact joined (parts.mpr ⟨rfl, quiet⟩)
                refine .inr ⟨a :: l, fires.1, by simp [leftStep, inWord], by simp, ?_⟩
                have stem := fires.2
                rw [run] at stem
                exact stem

/-- A pass after one that splits words, gap by gap. -/
theorem mapCells_after (splits : SplitsAttached h)
    (agree : ∀ l g r l₂ r₂, LeftAfter l (through g r) l₂ → RightAfter (through g l) r r₂ →
      k l₂ (h l g r) r₂ = d l g r)
    {l l₂ : Str} (cs : List (Cell Char)) (left : LeftAfter l (onward isBlock cs) l₂) :
    mapCells isBlock k l₂ (mapCells isBlock h l cs) = mapCells isBlock d l cs ∧
      LeftAfter (lastRun isBlock l cs) [] (lastRun isBlock l₂ (mapCells isBlock h l cs)) := by
  induction cs generalizing l l₂ with
  | nil => exact ⟨rfl, left⟩
  | cons c cs ih =>
      obtain ⟨g, x⟩ := c
      obtain ⟨cells, last⟩ := ih (leftStep_after splits left)
      have here := agree l g _ l₂ _ (onward_cons g x cs ▸ left) (rightRun_after splits l g x cs)
      refine ⟨?_, last⟩
      rw [mapCells] at here ⊢
      rw [mapCells, here, cells]
      rfl

theorem rewrite_after (splits : SplitsAttached h)
    (agree : ∀ l g r l₂ r₂, LeftAfter l (through g r) l₂ → RightAfter (through g l) r r₂ →
      k l₂ (h l g r) r₂ = d l g r)
    (cs : List (Cell Char)) (last : Str) :
    rewrite isBlock k [] (mapCells isBlock h [] cs) (h (lastRun isBlock [] cs) last []) =
      rewrite isBlock d [] cs last := by
  obtain ⟨cells, left⟩ := mapCells_after splits agree cs (.inl rfl : LeftAfter [] _ [])
  have none : through last ([] : Str) = [] := by simp [through]
  rw [rewrite, rewrite, cells, agree _ last [] _ [] (none.symm ▸ left) (.inl rfl)]

end Nipoto.Normalize
