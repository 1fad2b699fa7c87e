import Nipoto.Retrieval.HalfSpace.Suffix

/-! # Stray half-spaces

A run of ZWNJs becomes one, and one that is not between two words goes. Both
substitutions look at one character on either side at most.
-/

namespace Nipoto.Normalize

open Text Text.Regex Text.Gaps

def dropZwnj (g : Str) : Str := g.filter (· != zwnj)

def AllZwnj (g : Str) : Prop := g ≠ [] ∧ ∀ x ∈ g, x = zwnj

instance (g : Str) : Decidable (AllZwnj g) := inferInstanceAs (Decidable (_ ∧ _))

def runGap : Pass Char := fun _ g _ => squeeze 2 (· == zwnj) [zwnj] g

def edgeGap : Pass Char := fun l g r =>
  if l ≠ [] ∧ r ≠ [] ∧ g = [zwnj] then [zwnj] else dropZwnj g

theorem isSep_zwnj : isSep zwnj = true := by decide

theorem not_zwnj_of_solid {x : Char} (solid : isSep x = false) : x ≠ zwnj := by
  rintro rfl
  exact absurd solid (by decide)

theorem sub_zwnjRun {cs : List (Cell Char)} {last : Str} (proper : Proper isSep cs) (run : Str) :
    sub zwnjRun (fun _ => [zwnj]) (render cs last) = rewrite isBlock runGap run cs last := by
  induction cs generalizing run with
  | nil => rfl
  | cons c cs ih =>
      obtain ⟨g, x⟩ := c
      have solid : (x == zwnj) = false :=
        beq_eq_false_iff_ne.mpr (not_zwnj_of_solid (proper.head isSep).2)
      have split := @squeeze_append_outside 2 (· == zwnj) [zwnj] (by decide) x solid g (render cs last)
      rw [rewrite_cons, ← ih (proper.tail isSep)]
      exact split

theorem matches_zwnjAtEdge {before rest : Str} {d : Cursor} :
    zwnjAtEdge.Matches { before, rest } d ↔
      ∃ r, rest = zwnj :: r ∧ (touching isBlock before = [] ∨ r.takeWhile isBlock = []) ∧
        d = { before := zwnj :: before, rest := r } := by
  simp only [zwnjAtEdge, all, List.foldr_cons, List.foldr_nil]
  constructor
  · intro found
    cases found with
    | inl found =>
        obtain ⟨_, ⟨alone, rfl⟩, _, ⟨x, r, split, same, rfl⟩, rfl⟩ := found
        obtain rfl := beq_iff_eq.mp same
        exact ⟨r, split, .inl (no_word_behind.mp alone), rfl⟩
    | inr found =>
        obtain ⟨_, ⟨x, r, split, same, rfl⟩, _, ⟨alone, rfl⟩, rfl⟩ := found
        obtain rfl := beq_iff_eq.mp same
        exact ⟨r, split, .inr (no_word_ahead.mp alone), rfl⟩
  · rintro ⟨r, rfl, alone, rfl⟩
    cases alone with
    | inl alone =>
        exact .inl ⟨_, ⟨no_word_behind.mpr alone, rfl⟩, _, ⟨zwnj, r, rfl, beq_self_eq_true _, rfl⟩, rfl⟩
    | inr alone =>
        exact .inr ⟨_, ⟨zwnj, r, rfl, beq_self_eq_true _, rfl⟩, _, ⟨no_word_ahead.mpr alone, rfl⟩, rfl⟩

theorem edge_keeps {before rest : Str} {x : Char}
    (kept : x = zwnj → touching isBlock before ≠ [] ∧ rest.takeWhile isBlock ≠ []) :
    subFrom zwnjAtEdge (fun _ => []) 0 before (x :: rest) =
      x :: subFrom zwnjAtEdge (fun _ => []) 0 (x :: before) rest := by
  apply subFrom_of_none
  rw [Pattern.matchAt_eq_none]
  intro d m
  obtain ⟨r, split, alone, _⟩ := matches_zwnjAtEdge.mp m
  obtain ⟨rfl, rfl⟩ := List.cons.inj split
  obtain ⟨behind, ahead⟩ := kept rfl
  exact alone.elim behind ahead

theorem edge_drops {before rest : Str}
    (alone : touching isBlock before = [] ∨ rest.takeWhile isBlock = []) :
    subFrom zwnjAtEdge (fun _ => []) 0 before (zwnj :: rest) =
      subFrom zwnjAtEdge (fun _ => []) 0 (zwnj :: before) rest := by
  have found : zwnjAtEdge.matchAt before ([zwnj] ++ rest) =
      some { before := zwnj :: before, rest } := by
    apply Pattern.matchAt_of_unique
    · exact matches_zwnjAtEdge.mpr ⟨rest, rfl, alone, rfl⟩
    · intro e m
      obtain ⟨r, split, _, rfl⟩ := matches_zwnjAtEdge.mp m
      obtain rfl : rest = r := (List.cons.inj split).2
      rfl
  have dropped := @subFrom_of_some zwnjAtEdge (fun _ => []) before _ [zwnj] rest (by simp) found rfl
  simpa using dropped

/-- After a separator no ZWNJ of the gap survives. -/
theorem edge_inside {g : Str} (gap : IsGap isSep g) {before : Str}
    (ended : touching isBlock before = []) (rest : Str) :
    subFrom zwnjAtEdge (fun _ => []) 0 before (g ++ rest) =
      dropZwnj g ++ subFrom zwnjAtEdge (fun _ => []) 0 (g.reverse ++ before) rest := by
  induction g generalizing before with
  | nil => rfl
  | cons x g ih =>
      have outside := isBlock_of_isSep x (gap x List.mem_cons_self)
      have tail := ih (fun y member => gap y (List.mem_cons_of_mem x member))
        (touching_cons_other isBlock outside before)
      by_cases half : x = zwnj
      · subst half
        rw [List.cons_append, edge_drops (.inl ended), tail]
        simp [dropZwnj]
      · rw [List.cons_append, edge_keeps (fun same => absurd same half), tail]
        simp [dropZwnj, half]

theorem edge_gap {g : Str} (gap : IsGap isSep g) (before rest : Str) :
    subFrom zwnjAtEdge (fun _ => []) 0 before (g ++ rest) =
      edgeGap (touching isBlock before) g (rest.takeWhile isBlock) ++
        subFrom zwnjAtEdge (fun _ => []) 0 (g.reverse ++ before) rest := by
  cases g with
  | nil => simp [edgeGap, dropZwnj]
  | cons x g =>
      have outside := isBlock_of_isSep x (gap x List.mem_cons_self)
      have tail := edge_inside (fun y member => gap y (List.mem_cons_of_mem x member))
        (touching_cons_other isBlock outside before) rest
      by_cases half : x = zwnj
      · subst half
        by_cases between : touching isBlock before ≠ [] ∧ (g ++ rest).takeWhile isBlock ≠ []
        · have single : g = [] := by
            cases g with
            | nil => rfl
            | cons y g =>
                have outside := isBlock_of_isSep y (gap y (by simp))
                simp [outside] at between
          subst single
          rw [List.cons_append, edge_keeps (fun _ => between), tail]
          simp only [List.nil_append] at between
          simp [edgeGap, between, dropZwnj]
        · have alone : touching isBlock before = [] ∨ (g ++ rest).takeWhile isBlock = [] := by
            by_contra neither
            exact between (not_or.mp neither)
          have pass : edgeGap (touching isBlock before) (zwnj :: g) (rest.takeWhile isBlock) =
              dropZwnj (zwnj :: g) := by
            rw [edgeGap, if_neg]
            rintro ⟨left, right, single⟩
            obtain rfl : g = [] := (List.cons.inj single).2
            exact between ⟨left, right⟩
          rw [List.cons_append, edge_drops alone, tail, pass]
          simp [dropZwnj]
      · rw [List.cons_append, edge_keeps (fun same => absurd same half), tail]
        simp [edgeGap, dropZwnj, half]

theorem sub_zwnjAtEdge {cs : List (Cell Char)} {last before : Str} (proper : Proper isSep cs)
    (gapEnd : IsGap isSep last) :
    subFrom zwnjAtEdge (fun _ => []) 0 before (render cs last) =
      rewrite isBlock edgeGap (touching isBlock before) cs last := by
  induction cs generalizing before with
  | nil =>
      have whole := edge_gap gapEnd before []
      simpa [rewrite, mapCells, lastRun, render] using whole
  | cons c cs ih =>
      obtain ⟨g, x⟩ := c
      have gap := (proper.head isSep).1
      have run : (x :: render cs last).takeWhile isBlock = rightRun isBlock ((g, x) :: cs) := by
        have read := takeWhile_render isSep isBlock isBlock_of_isSep (proper.solid isSep) gapEnd
        rw [onward_glued] at read
        exact read
      rw [render, edge_gap gap, run,
        edge_keeps (fun same => absurd same (not_zwnj_of_solid (proper.head isSep).2)),
        ih (proper.tail isSep), touching_leftStep isSep isBlock isBlock_of_isSep gap, rewrite_cons]

def strayGap : Pass Char := fun l g r =>
  if l ≠ [] ∧ r ≠ [] ∧ AllZwnj g then [zwnj] else dropZwnj g

theorem squeeze_pure {g : Str} (pure : ∀ x ∈ g, x = zwnj) :
    squeeze 2 (· == zwnj) [zwnj] g = if 2 ≤ g.length then [zwnj] else g :=
  squeeze_all (by decide) fun x member => beq_iff_eq.mpr (pure x member)

theorem squeeze_impure {y : Char} (other : y ≠ zwnj) (a b : Str) :
    squeeze 2 (· == zwnj) [zwnj] (a ++ y :: b) =
      squeeze 2 (· == zwnj) [zwnj] a ++ y :: squeeze 2 (· == zwnj) [zwnj] b :=
  @squeeze_append_outside 2 (· == zwnj) [zwnj] (by decide) y (beq_eq_false_iff_ne.mpr other) a b

theorem impure_split {g : Str} (impure : ¬ ∀ x ∈ g, x = zwnj) :
    ∃ a y b, g = a ++ y :: b ∧ y ≠ zwnj := by
  simp only [not_forall] at impure
  obtain ⟨y, member, other⟩ := impure
  obtain ⟨a, b, split⟩ := List.append_of_mem member
  exact ⟨a, y, b, split, other⟩

theorem squeeze_eq_zwnj {g : Str} : squeeze 2 (· == zwnj) [zwnj] g = [zwnj] ↔ AllZwnj g := by
  by_cases pure : ∀ x ∈ g, x = zwnj
  · rw [squeeze_pure pure]
    match g, pure with
    | [], _ => simp [AllZwnj]
    | [x], pure => simp [AllZwnj]
    | x :: y :: g, pure => simpa [AllZwnj] using pure
  · obtain ⟨a, y, b, rfl, other⟩ := impure_split pure
    rw [squeeze_impure other]
    constructor
    · intro single
      have member : y ∈ [zwnj] := single ▸ by simp
      exact absurd (List.mem_singleton.mp member) other
    · intro all
      exact absurd all.2 pure

theorem dropZwnj_squeeze (g : Str) : dropZwnj (squeeze 2 (· == zwnj) [zwnj] g) = dropZwnj g := by
  induction g using run_induction (p := (· == zwnj)) with
  | nil => rfl
  | outside x g other ih =>
      rw [@squeeze_outside 2 (· == zwnj) [zwnj] Nat.two_pos x other g]
      simp only [dropZwnj] at ih ⊢
      rw [List.filter_cons, List.filter_cons, ih]
  | run w g _ inside ended ih =>
      have dropped : ∀ u : Str, (∀ x ∈ u, (x == zwnj) = true) → u.filter (· != zwnj) = [] :=
        fun u only => List.filter_eq_nil_iff.mpr fun x member => by simpa using only x member
      have put : (if 2 ≤ w.length then [zwnj] else w).filter (· != zwnj) = [] := by
        split
        · rfl
        · exact dropped w inside
      rw [@squeeze_run 2 (· == zwnj) [zwnj] Nat.two_pos w inside g ended]
      simp only [dropZwnj] at ih ⊢
      rw [List.filter_append, List.filter_append, put, dropped w inside, ih]

theorem runGap_keeps : KeepsRuns runGap := by
  intro l g r _ _
  cases g with
  | nil => rfl
  | cons x g =>
      by_cases pure : ∀ y ∈ x :: g, y = zwnj
      · rw [runGap, squeeze_pure pure]
        split <;> rfl
      · obtain ⟨a, y, b, split, other⟩ := impure_split pure
        have filled : ∀ s t : Str, (s ++ y :: t).isEmpty = false := by
          intro s t
          cases s <;> rfl
        rw [runGap, split, squeeze_impure other, filled, filled]

theorem edgeGap_runGap (l g r : Str) : edgeGap l (runGap l g r) r = strayGap l g r := by
  simp only [edgeGap, runGap, strayGap, squeeze_eq_zwnj, dropZwnj_squeeze]

theorem dropZwnj_gap {g : Str} (gap : IsGap isSep g) : IsGap isSep (dropZwnj g) :=
  fun c member => gap c (List.mem_of_mem_filter member)

theorem zwnj_gap : IsGap isSep [zwnj] := by
  intro c member
  obtain rfl := List.mem_singleton.mp member
  exact isSep_zwnj

theorem runGap_gap (l r : Str) {g : Str} (gap : IsGap isSep g) : IsGap isSep (runGap l g r) := by
  intro c member
  rcases mem_squeeze (by decide : 0 < 2) member with put | old
  · exact zwnj_gap c put
  · exact gap c old

/-- Both substitutions as one pass. -/
theorem sub_stray {cs : List (Cell Char)} {last : Str} (proper : Proper isSep cs)
    (gapEnd : IsGap isSep last) :
    sub zwnjAtEdge (fun _ => []) (sub zwnjRun (fun _ => [zwnj]) (render cs last)) =
      rewrite isBlock strayGap [] cs last := by
  have after := @sub_zwnjAtEdge _ _ []
    (mapCells_proper isSep isBlock (fun l _ r => runGap_gap l r) proper [])
    (runGap_gap (lastRun isBlock [] cs) [] gapEnd)
  rw [sub_zwnjRun proper [], sub, rewrite, after, touching_nil,
    rewrite_mapCells isBlock runGap_keeps]
  simp only [edgeGap_runGap]

end Nipoto.Normalize
