import Nipoto.Retrieval.HalfSpace.Basic

/-! # The spaced prefix: a verb prefix written apart from its word

A match covers the prefix and the gap after it, so the scan decides about a gap
while it still stands at the start of the word on its left. `SpacedPending` is
that decision seen from inside the word.
-/

namespace Nipoto.Normalize

open Text Text.Regex Text.Gaps

def spacedGap : Pass Char := fun l g r =>
  if l ∈ prefixes ∧ IsJoint g ∧ r ≠ [] then [zwnj] else g

theorem matches_prefixSpaced {before rest : Str} {d : Cursor} :
    prefixSpaced.Matches { before, rest } d ↔
      touching isBlock before = [] ∧ ∃ p ∈ prefixes, ∃ g r, rest = p ++ (g ++ r) ∧ IsJoint g ∧
        r.takeWhile isBlock ≠ [] ∧
        d = { before := (p ++ g).reverse ++ before, rest := r, groups := [(1, p)] } := by
  simp only [prefixSpaced, all, List.foldr_cons, List.foldr_nil]
  constructor
  · rintro ⟨e, ⟨boundary, rfl⟩, e₂, mi, e₃, run, e₄, ⟨word, rfl⟩, rfl⟩
    obtain ⟨p, member, r, split, rfl⟩ := matches_miGroup.mp mi
    obtain ⟨g, r', split', long, inside, rfl⟩ := matches_many.mp run
    simp only at split split'
    subst split split'
    refine ⟨no_word_behind.mp boundary, p, member, g, r', rfl, ⟨?_, inside⟩, seesAhead_iff.mp word,
      by simp⟩
    rintro rfl
    simp at long
  · rintro ⟨boundary, p, member, g, r, rfl, ⟨nonempty, inside⟩, word, rfl⟩
    refine ⟨_, ⟨no_word_behind.mpr boundary, rfl⟩, _,
      matches_miGroup.mpr ⟨p, member, g ++ r, rfl, rfl⟩, _,
      matches_many.mpr ⟨g, r, rfl, List.length_pos_iff.mpr nonempty, inside, rfl⟩, _,
      ⟨seesAhead_iff.mpr word, rfl⟩, ?_⟩
    simp [Pattern.Matches]

/-- A word, then a gap, can be read off a text in only one way. -/
theorem word_gap_unique {p p' g g' r r' : Str} (word : ∀ x ∈ p, isBlock x = true)
    (word' : ∀ x ∈ p', isBlock x = true) (joint : IsJoint g) (joint' : IsJoint g')
    (next : r.takeWhile isBlock ≠ []) (next' : r'.takeWhile isBlock ≠ [])
    (same : p ++ (g ++ r) = p' ++ (g' ++ r')) : p = p' ∧ g = g' ∧ r = r' := by
  have cell : ∀ {p g r : Str}, (∀ x ∈ p, isBlock x = true) → IsJoint g → r.takeWhile isBlock ≠ [] →
      p = (p ++ (g ++ r)).takeWhile isBlock ∧ g = (g ++ r).takeWhile isSep := by
    intro p g r word joint next
    cases r with
    | nil => simp at next
    | cons y r =>
        have inWord : isBlock y = true := by
          by_contra outside
          simp [outside] at next
        obtain ⟨s, g, rfl⟩ := List.exists_cons_of_ne_nil joint.1
        have separator := isBlock_of_isSep s (joint.gap s List.mem_cons_self)
        refine ⟨by simp [List.takeWhile_append_of_pos word, separator], ?_⟩
        rw [List.takeWhile_append_of_pos joint.gap]
        simp [isSep_of_isBlock inWord]
  have first : p = p' := by rw [(cell word joint next).1, same, ← (cell word' joint' next').1]
  subst first
  have rest := List.append_cancel_left same
  have second : g = g' := by rw [(cell word joint next).2, rest, ← (cell word' joint' next').2]
  subst second
  exact ⟨rfl, rfl, List.append_cancel_left rest⟩

theorem matchAt_prefixSpaced {before p g r : Str} (boundary : touching isBlock before = [])
    (member : p ∈ prefixes) (joint : IsJoint g) (next : r.takeWhile isBlock ≠ []) :
    prefixSpaced.matchAt before (p ++ (g ++ r)) =
      some { before := (p ++ g).reverse ++ before, rest := r, groups := [(1, p)] } := by
  apply Pattern.matchAt_of_unique
  · exact matches_prefixSpaced.mpr ⟨boundary, p, member, g, r, rfl, joint, next, rfl⟩
  · intro e m
    obtain ⟨_, p', member', g', r', same, joint', next', rfl⟩ := matches_prefixSpaced.mp m
    obtain ⟨rfl, rfl, rfl⟩ := word_gap_unique (isBlock_of_mem_prefixes member)
      (isBlock_of_mem_prefixes member') joint joint' next next' same
    rfl

/-- The rule will fire at the gap that closes the run now being read. -/
def SpacedPending (run : Str) (cs : List (Cell Char)) : Prop :=
  ∃ w g y ds, cs = glue w ((g, y) :: ds) ∧ (∀ x ∈ w, isBlock x = true) ∧ run ++ w ∈ prefixes ∧
    IsJoint g ∧ isBlock y = true

theorem spaced_never {x : Char} (outside : isBlock x = false) (before rest : Str) :
    prefixSpaced.matchAt before (x :: rest) = none := by
  rw [Pattern.matchAt_eq_none]
  intro d m
  obtain ⟨_, p, member, g, r, split, _⟩ := matches_prefixSpaced.mp m
  obtain ⟨y, p, rfl⟩ := List.exists_cons_of_ne_nil (prefix_ne_nil member)
  obtain rfl : x = y := (List.cons.inj split).1
  simp [isBlock_of_mem_prefixes member x List.mem_cons_self] at outside

theorem spaced_mid_run {before : Str} (inside : touching isBlock before ≠ []) (rest : Str) :
    prefixSpaced.matchAt before rest = none := by
  rw [Pattern.matchAt_eq_none]
  intro d m
  exact inside (matches_prefixSpaced.mp m).1

theorem spaced_no_match {x : Char} {cs : List (Cell Char)} {last : Str}
    (proper : Proper isSep (([], x) :: cs)) (gapEnd : IsGap isSep last)
    (calm : ¬ SpacedPending [] (([], x) :: cs)) (before : Str) :
    prefixSpaced.matchAt before (x :: render cs last) = none := by
  rw [Pattern.matchAt_eq_none]
  intro d m
  obtain ⟨_, p, member, g, r, split, joint, next, _⟩ := matches_prefixSpaced.mp m
  cases r with
  | nil => simp at next
  | cons y r =>
      have inWord : isBlock y = true := by
        by_contra outside
        simp [outside] at next
      have tail : Proper isSep ((g, y) :: (cut isSep r).1) := by
        intro c inCells
        rcases List.mem_cons.mp inCells with rfl | inCells
        · exact ⟨joint.gap, isSep_of_isBlock inWord⟩
        · exact (cut_proper isSep r).1 c inCells
      have whole := Proper.glue isSep
        (fun z zIn => isSep_of_isBlock (isBlock_of_mem_prefixes member z zIn)) tail
      have texts : render (([], x) :: cs) last =
          render (glue p ((g, y) :: (cut isSep r).1)) (cut isSep r).2 := by
        simp only [render_glue, render, render_cut, List.nil_append]
        exact split
      have cells := (render_injective isSep proper gapEnd whole (cut_proper isSep r).2 texts).1
      exact calm ⟨p, g, y, _, cells, isBlock_of_mem_prefixes member, member, joint, inWord⟩

theorem spaced_fires {w g before last : Str} {y : Char} {ds : List (Cell Char)}
    (boundary : touching isBlock before = []) (member : w ∈ prefixes) (joint : IsJoint g)
    (next : isBlock y = true)
    (after : subFrom prefixSpaced (fun m => m.group 1 ++ [zwnj]) 0 ((w ++ g).reverse ++ before)
      (y :: render ds last) = rewrite isBlock spacedGap [] (([], y) :: ds) last) :
    subFrom prefixSpaced (fun m => m.group 1 ++ [zwnj]) 0 before (w ++ (g ++ y :: render ds last)) =
      rewrite isBlock spacedGap [] (glue w ((g, y) :: ds)) last := by
  have still : ∀ l r, spacedGap l [] r = [] := by simp [spacedGap, IsJoint]
  have found := matchAt_prefixSpaced (r := y :: render ds last) boundary member joint (by simp [next])
  have fires : spacedGap w g (rightRun isBlock ((g, y) :: ds)) = [zwnj] := by
    simp [spacedGap, member, joint, rightRun_cons, next]
  have restart : leftStep isBlock w g y = leftStep isBlock [] [] y := by
    simp [leftStep, next, joint.1]
  rw [← List.append_assoc] at found ⊢
  rw [subFrom_of_some (by simp [prefix_ne_nil member]) found rfl, after,
    rewrite_glue isBlock (isBlock_of_mem_prefixes member) (fun _ _ _ _ => still _ _), List.nil_append,
    rewrite_cons, rewrite_cons, still, fires, restart]
  simp [Cursor.group]

theorem spaced_quiet (l r : Str) : spacedGap l [] r = [] := by simp [spacedGap, IsJoint]

theorem SpacedPending.shift {before : Str} {x : Char} {cs : List (Cell Char)}
    (inWord : isBlock x = true) (h : SpacedPending (touching isBlock (x :: before)) cs) :
    SpacedPending (touching isBlock before) (([], x) :: cs) := by
  obtain ⟨w, g, y, ds, rfl, word, member, joint, next⟩ := h
  rw [touching_cons_word isBlock inWord, List.append_assoc] at member
  exact ⟨x :: w, g, y, ds, rfl, by simpa [inWord] using word, member, joint, next⟩

/-- No decision was left open by a word that began before the position. -/
def SpacedCalm (before : Str) (cs : List (Cell Char)) : Prop :=
  touching isBlock before ≠ [] → ¬ SpacedPending (touching isBlock before) cs

abbrev SpacedAgrees : (last : Str) → List (Cell Char) → Prop :=
  Scan.Agrees isBlock prefixSpaced (fun m => m.group 1 ++ [zwnj]) spacedGap SpacedCalm

section
variable {last : Str} {x : Char} {cs : List (Cell Char)}

theorem spaced_end (gapEnd : IsGap isSep last) : SpacedAgrees last [] := by
  intro before _
  apply Scan.finish
  · exact Scan.copy_all fun x member => spaced_never (isBlock_of_isSep x (gapEnd x member))
  · simp [spacedGap]

/-- A match covers the word and its gap, and the scan goes on at the next word. -/
theorem spaced_match (proper : Proper isSep (([], x) :: cs))
    (shorter : ∀ ds, ds.length ≤ cs.length → Proper isSep ds → SpacedAgrees last ds)
    {before : Str} (outside : touching isBlock before = []) (fires : SpacedPending [] (([], x) :: cs)) :
    subFrom prefixSpaced (fun m => m.group 1 ++ [zwnj]) 0 before (render (([], x) :: cs) last) =
      rewrite isBlock spacedGap [] (([], x) :: cs) last := by
  obtain ⟨w, g, y, ds, split, word, member, joint, next⟩ := fires
  rw [List.nil_append] at member
  have text : render (([], x) :: cs) last = w ++ (g ++ y :: render ds last) := by
    rw [split, render_glue]
    rfl
  have fewer : (([], y) :: ds : List (Cell Char)).length ≤ cs.length := by
    have lengths := congrArg List.length split
    have long := (by decide : ∀ p ∈ prefixes, 2 ≤ p.length) w member
    simp only [glue, List.length_append, List.length_map, List.length_cons] at lengths ⊢
    omega
  have properRest : Proper isSep (([], y) :: ds) :=
    Proper.solid isSep (Proper.glued isSep (split ▸ proper))
  have ended : touching isBlock ((w ++ g).reverse ++ before) = [] := by
    rw [List.reverse_append, List.append_assoc]
    exact touching_gap isSep isBlock isBlock_of_isSep joint.gap joint.1 _
  have after := shorter _ fewer properRest ((w ++ g).reverse ++ before)
    (fun inside => absurd ended inside)
  rw [ended] at after
  rw [text, split]
  exact spaced_fires outside member joint next after

theorem spaced_solid (gapEnd : IsGap isSep last) (proper : Proper isSep (([], x) :: cs))
    (shorter : ∀ ds, ds.length ≤ cs.length → Proper isSep ds → SpacedAgrees last ds) :
    SpacedAgrees last (([], x) :: cs) := by
  intro before calm
  have later := shorter cs le_rfl (proper.tail isSep) (x :: before)
  cases inWord : isBlock x with
  | false =>
      refine Scan.solid (spaced_quiet _ _) (spaced_never inWord before _) (later ?_)
      exact fun inside => absurd (touching_cons_other isBlock inWord before) inside
  | true =>
      by_cases inside : touching isBlock before = []
      · by_cases fires : SpacedPending [] (([], x) :: cs)
        · rw [inside]
          exact spaced_match proper shorter inside fires
        · refine Scan.solid (spaced_quiet _ _) (spaced_no_match proper gapEnd fires before) (later ?_)
          exact fun _ pending => fires (inside ▸ pending.shift inWord)
      · refine Scan.solid (spaced_quiet _ _) (spaced_mid_run inside _) (later ?_)
        exact fun _ pending => calm inside (pending.shift inWord)

theorem spaced_gap {g : Str} (filled : g ≠ []) (proper : Proper isSep ((g, x) :: cs))
    (solid : SpacedAgrees last (([], x) :: cs)) : SpacedAgrees last ((g, x) :: cs) := by
  intro before calm
  have gap := (proper.head isSep).1
  have ended := touching_gap isSep isBlock isBlock_of_isSep gap filled before
  have kept : spacedGap (touching isBlock before) g (rightRun isBlock ((g, x) :: cs)) = g := by
    apply if_neg
    rintro ⟨member, joint, next⟩
    have inWord : isBlock x = true := by
      by_contra outside
      simp [rightRun_cons, outside] at next
    exact calm (prefix_ne_nil member)
      ⟨[], g, x, cs, rfl, by simp, by simpa using member, joint, inWord⟩
  exact Scan.gap isBlock_of_isSep gap filled
    (subFrom_pass (fun y member => spaced_never (isBlock_of_isSep y (gap y member))) _ _)
    kept (spaced_quiet _ _) (solid _ (fun inside => absurd ended inside))

theorem sub_prefixSpaced (proper : Proper isSep cs) (gapEnd : IsGap isSep last) : SpacedAgrees last cs :=
  Scan.whole (spaced_end gapEnd) (fun _ _ => spaced_solid gapEnd)
    (fun _ _ _ filled proper _ => spaced_gap filled proper) proper

end

end Nipoto.Normalize
