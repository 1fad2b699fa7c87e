import Nipoto.Retrieval.HalfSpace.Basic

/-! # The attached prefix: a verb prefix written together with its stem

Only a whole word that is a prefix and a listed stem is split, so the order in
which the stems are tried does not matter.
-/

namespace Nipoto.Normalize

open Text Text.Regex Text.Gaps

def attachedGap : Pass Char := fun l g r =>
  if g = [] ∧ l ∈ prefixes ∧ r ∈ verbStems then [zwnj] else g

def IsAttached (w : Str) : Prop := ∃ p ∈ prefixes, ∃ s ∈ verbStems, w = p ++ s

theorem IsAttached.word {w : Str} (h : IsAttached w) : ∀ x ∈ w, isBlock x = true := by
  obtain ⟨p, hp, s, hs, rfl⟩ := h
  intro x member
  rcases List.mem_append.mp member with inPrefix | inStem
  · exact isBlock_of_mem_prefixes hp x inPrefix
  · exact isBlock_of_mem_stems hs x inStem

/-- The pattern over any list of stems; the real one is long to unfold. -/
theorem matches_wholeWord {stems : List Str} {before rest : Str} {d : Cursor} :
    (all [.behind false 1 isBlock, miGroup, .group 2 (anyOf stems),
      .ahead false isBlock]).Matches { before, rest } d ↔
      touching isBlock before = [] ∧ ∃ p ∈ prefixes, ∃ s ∈ stems, ∃ r, rest = p ++ (s ++ r) ∧
        r.takeWhile isBlock = [] ∧
        d = { before := (p ++ s).reverse ++ before, rest := r, groups := [(2, s), (1, p)] } := by
  simp only [all, List.foldr_cons, List.foldr_nil]
  constructor
  · rintro ⟨e, ⟨boundary, rfl⟩, e₂, mi, _, ⟨e₃, stem, rfl⟩, e₄, ⟨ended, rfl⟩, rfl⟩
    obtain ⟨p, member, r, split, rfl⟩ := matches_miGroup.mp mi
    obtain ⟨s, inStems, found⟩ := matches_anyOf.mp stem
    obtain ⟨r', split', rfl⟩ := matches_literal.mp found
    simp only at split split'
    subst split split'
    refine ⟨no_word_behind.mp boundary, p, member, s, inStems, r', rfl, no_word_ahead.mp ended, ?_⟩
    rw [readUpTo_append (w := s) rfl]
    simp
  · rintro ⟨boundary, p, member, s, inStems, r, rfl, ended, rfl⟩
    refine ⟨_, ⟨no_word_behind.mpr boundary, rfl⟩, _,
      matches_miGroup.mpr ⟨p, member, s ++ r, rfl, rfl⟩, _,
      ⟨_, matches_anyOf.mpr ⟨s, inStems, matches_literal.mpr ⟨r, rfl, rfl⟩⟩, rfl⟩, _,
      ⟨no_word_ahead.mpr ended, rfl⟩, ?_⟩
    rw [readUpTo_append (w := s) rfl]
    simp [Pattern.Matches]

theorem matches_prefixAttached {before rest : Str} {d : Cursor} :
    prefixAttached.Matches { before, rest } d ↔
      touching isBlock before = [] ∧ ∃ p ∈ prefixes, ∃ s ∈ verbStems, ∃ r, rest = p ++ (s ++ r) ∧
        r.takeWhile isBlock = [] ∧
        d = { before := (p ++ s).reverse ++ before, rest := r, groups := [(2, s), (1, p)] } := by
  have listed : ∀ s, s ∈ longestFirst verbStems ↔ s ∈ verbStems :=
    fun s => (List.perm_insertionSort _ verbStems).mem_iff
  rw [prefixAttached, matches_wholeWord]
  simp only [listed]

theorem takeWhile_word {w r : Str} (word : ∀ x ∈ w, isBlock x = true)
    (ended : r.takeWhile isBlock = []) : (w ++ r).takeWhile isBlock = w := by
  rw [List.takeWhile_append_of_pos word, ended, List.append_nil]

theorem matchAt_prefixAttached {before p s r : Str} (boundary : touching isBlock before = [])
    (hp : p ∈ prefixes) (hs : s ∈ verbStems) (ended : r.takeWhile isBlock = []) :
    prefixAttached.matchAt before (p ++ s ++ r) =
      some { before := (p ++ s).reverse ++ before, rest := r, groups := [(2, s), (1, p)] } := by
  rw [List.append_assoc]
  apply Pattern.matchAt_of_unique
  · exact matches_prefixAttached.mpr ⟨boundary, p, hp, s, hs, r, rfl, ended, rfl⟩
  · intro e m
    obtain ⟨_, q, hq, t, ht, r', same, ended', rfl⟩ := matches_prefixAttached.mp m
    rw [← List.append_assoc, ← List.append_assoc] at same
    have words : p ++ s = q ++ t := by
      rw [← takeWhile_word (IsAttached.word ⟨p, hp, s, hs, rfl⟩) ended, same,
        takeWhile_word (IsAttached.word ⟨q, hq, t, ht, rfl⟩) ended']
    obtain ⟨rfl, rfl⟩ := prefix_unique hp hq words
    obtain rfl := List.append_cancel_left same
    rfl

theorem attached_never {x : Char} (outside : isBlock x = false) (before rest : Str) :
    prefixAttached.matchAt before (x :: rest) = none := by
  rw [Pattern.matchAt_eq_none]
  intro d m
  obtain ⟨_, p, member, s, _, r, split, _⟩ := matches_prefixAttached.mp m
  obtain ⟨y, p, rfl⟩ := List.exists_cons_of_ne_nil (prefix_ne_nil member)
  obtain rfl : x = y := (List.cons.inj split).1
  simp [isBlock_of_mem_prefixes member x List.mem_cons_self] at outside

theorem attached_mid_run {before : Str} (inside : touching isBlock before ≠ []) (rest : Str) :
    prefixAttached.matchAt before rest = none := by
  rw [Pattern.matchAt_eq_none]
  intro d m
  exact inside (matches_prefixAttached.mp m).1

theorem attached_no_match {before rest : Str} (calm : ¬ IsAttached (rest.takeWhile isBlock)) :
    prefixAttached.matchAt before rest = none := by
  rw [Pattern.matchAt_eq_none]
  intro d m
  obtain ⟨_, p, hp, s, hs, r, rfl, ended, _⟩ := matches_prefixAttached.mp m
  rw [← List.append_assoc, takeWhile_word (IsAttached.word ⟨p, hp, s, hs, rfl⟩) ended] at calm
  exact calm ⟨p, hp, s, hs, rfl⟩

/-- The pass splits a whole attached word once, between its prefix and its stem. -/
theorem rewrite_attached {p s last : Str} (hp : p ∈ prefixes) (hs : s ∈ verbStems)
    {ds : List (Cell Char)} (ended : onward isBlock ds = []) :
    rewrite isBlock attachedGap [] (glue (p ++ s) ds) last =
      p ++ [zwnj] ++ s ++ rewrite isBlock attachedGap (p ++ s) ds last := by
  obtain ⟨y, t, rfl⟩ := List.exists_cons_of_ne_nil
    (stem_ne_nil hs)
  have word := isBlock_of_mem_stems hs
  have inWord := word y List.mem_cons_self
  have tail : ∀ x ∈ t, isBlock x = true := fun x member => word x (List.mem_cons_of_mem y member)
  have stem : rightRun isBlock (([], y) :: glue t ds) = y :: t := by
    rw [rightRun_cons, inWord, if_pos rfl, onward_glue isBlock tail, ended, List.append_nil]
  have beforeSplit : ∀ w₁ w₂, p = w₁ ++ w₂ → w₂ ≠ [] →
      attachedGap ([] ++ w₁) [] (w₂ ++ onward isBlock (glue (y :: t) ds)) = [] := by
    intro w₁ w₂ split rest
    rw [List.nil_append, attachedGap, if_neg]
    rintro ⟨_, early, _⟩
    exact rest (prefix_complete early (split ▸ hp))
  have afterSplit : ∀ w₁ w₂, t = w₁ ++ w₂ → w₂ ≠ [] →
      attachedGap (p ++ [y] ++ w₁) [] (w₂ ++ onward isBlock ds) = [] := by
    intro w₁ w₂ _ _
    rw [attachedGap, if_neg]
    rintro ⟨_, again, _⟩
    rw [List.append_assoc] at again
    simpa using prefix_complete hp again
  have splits : attachedGap p [] (y :: t) = [zwnj] := by simp [attachedGap, hp, hs]
  have step : leftStep isBlock p [] y = p ++ [y] := by simp [leftStep, inWord]
  rw [glue_append, rewrite_glue isBlock (isBlock_of_mem_prefixes hp) beforeSplit, List.nil_append,
    glue_cons, rewrite_cons, stem, splits, step, rewrite_glue isBlock tail afterSplit]
  simp

/-- A word that began before the position is not split. -/
def AttachedCalm (before : Str) (cs : List (Cell Char)) : Prop :=
  touching isBlock before ≠ [] → onward isBlock cs ≠ [] →
    ¬ IsAttached (touching isBlock before ++ onward isBlock cs)

abbrev AttachedAgrees : (last : Str) → List (Cell Char) → Prop :=
  Scan.Agrees isBlock prefixAttached (fun m => m.group 1 ++ [zwnj] ++ m.group 2) attachedGap AttachedCalm

theorem attached_no_left (g r : Str) : attachedGap [] g r = g := by
  rw [attachedGap, if_neg]
  rintro ⟨_, empty, _⟩
  exact prefix_ne_nil empty rfl

theorem attached_no_right (l g : Str) : attachedGap l g [] = g := by
  rw [attachedGap, if_neg]
  rintro ⟨_, _, empty⟩
  exact stem_ne_nil empty rfl

section
variable {last : Str} {x : Char} {cs : List (Cell Char)}

theorem attached_end (gapEnd : IsGap isSep last) : AttachedAgrees last [] := by
  intro before _
  apply Scan.finish
  · exact Scan.copy_all fun x member => attached_never (isBlock_of_isSep x (gapEnd x member))
  · exact attached_no_right _ _

/-- A match covers the whole word. -/
theorem attached_match (gapEnd : IsGap isSep last) (proper : Proper isSep (([], x) :: cs))
    (shorter : ∀ ds, ds.length ≤ cs.length → Proper isSep ds → AttachedAgrees last ds)
    {before : Str} (outside : touching isBlock before = []) (fires : IsAttached (x :: onward isBlock cs)) :
    subFrom prefixAttached (fun m => m.group 1 ++ [zwnj] ++ m.group 2) 0 before
        (render (([], x) :: cs) last) =
      rewrite isBlock attachedGap [] (([], x) :: cs) last := by
  obtain ⟨p, hp, s, hs, split⟩ := fires
  obtain ⟨ds, cells, ended⟩ := onward_split isBlock cs
  have whole : ([], x) :: cs = glue (p ++ s) ds := by rw [← split, glue_cons, ← cells]
  have properRest : Proper isSep ds := Proper.glued isSep (whole ▸ proper)
  have text : render (([], x) :: cs) last = p ++ s ++ render ds last := by rw [whole, render_glue]
  have next : (render ds last).takeWhile isBlock = [] := by
    rw [takeWhile_render isSep isBlock isBlock_of_isSep properRest gapEnd, ended]
  have fewer : ds.length ≤ cs.length := by
    have lengths := congrArg List.length whole
    have long := stem_long hs
    simp only [glue, List.length_append, List.length_map, List.length_cons] at lengths
    omega
  have found := matchAt_prefixAttached outside hp hs next
  have after := shorter ds fewer properRest ((p ++ s).reverse ++ before)
    (fun _ more => absurd ended more)
  rw [touching_word isBlock (IsAttached.word ⟨p, hp, s, hs, rfl⟩), outside, List.nil_append] at after
  rw [text, whole, rewrite_attached hp hs ended,
    subFrom_of_some (by simp [prefix_ne_nil hp]) found rfl, after]
  rfl

theorem attached_solid (gapEnd : IsGap isSep last) (proper : Proper isSep (([], x) :: cs))
    (shorter : ∀ ds, ds.length ≤ cs.length → Proper isSep ds → AttachedAgrees last ds) :
    AttachedAgrees last (([], x) :: cs) := by
  intro before calm
  have rest := proper.tail isSep
  have later := shorter cs le_rfl rest (x :: before)
  cases inWord : isBlock x with
  | false =>
      have run : rightRun isBlock (([], x) :: cs) = [] := by simp [rightRun_cons, inWord]
      have quiet : attachedGap (touching isBlock before) [] (rightRun isBlock (([], x) :: cs)) = [] := by
        rw [run]
        exact attached_no_right _ _
      refine Scan.solid quiet (attached_never inWord before _) (later ?_)
      exact fun inside => absurd (touching_cons_other isBlock inWord before) inside
  | true =>
      have run : rightRun isBlock (([], x) :: cs) = x :: onward isBlock cs := by
        simp [rightRun_cons, inWord]
      have shift : touching isBlock (x :: before) ++ onward isBlock cs =
          touching isBlock before ++ x :: onward isBlock cs := by
        rw [touching_cons_word isBlock inWord]
        simp
      by_cases inside : touching isBlock before = []
      · by_cases fires : IsAttached (x :: onward isBlock cs)
        · rw [inside]
          exact attached_match gapEnd proper shorter inside fires
        · refine Scan.solid (inside ▸ attached_no_left _ _) (attached_no_match ?_) (later ?_)
          · rw [List.takeWhile_cons_of_pos inWord,
              takeWhile_render isSep isBlock isBlock_of_isSep rest gapEnd]
            exact fires
          · intro _ _
            rw [shift, inside]
            exact fires
      · have whole : ¬ IsAttached (touching isBlock before ++ x :: onward isBlock cs) := by
          rw [← run, ← onward_glued]
          exact calm inside (by simp [onward_glued, run])
        refine Scan.solid ?_ (attached_mid_run inside _) (later ?_)
        · rw [attachedGap, if_neg]
          rintro ⟨_, hp, hs⟩
          exact whole ⟨_, hp, _, hs, by rw [run]⟩
        · intro _ _
          rw [shift]
          exact whole

theorem attached_gap {g : Str} (filled : g ≠ []) (proper : Proper isSep ((g, x) :: cs))
    (solid : AttachedAgrees last (([], x) :: cs)) : AttachedAgrees last ((g, x) :: cs) := by
  intro before _
  have gap := (proper.head isSep).1
  have ended := touching_gap isSep isBlock isBlock_of_isSep gap filled before
  exact Scan.gap isBlock_of_isSep gap filled
    (subFrom_pass (fun y member => attached_never (isBlock_of_isSep y (gap y member))) _ _)
    (by simp [attachedGap, filled]) (attached_no_left _ _)
    (solid _ (fun inside => absurd ended inside))

theorem sub_prefixAttached (proper : Proper isSep cs) (gapEnd : IsGap isSep last) :
    AttachedAgrees last cs :=
  Scan.whole (attached_end gapEnd) (fun _ _ => attached_solid gapEnd)
    (fun _ _ _ filled proper _ => attached_gap filled proper) proper

end

end Nipoto.Normalize
