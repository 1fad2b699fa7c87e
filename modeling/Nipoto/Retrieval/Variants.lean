import Nipoto.Retrieval.Characters
import Nipoto.Retrieval.NormalForm
import Nipoto.Text.Interior

/-! # Spelling variants that differ in one separator

Two texts that differ in the separator between two words have the same normal
form exactly when the two separators come out the same: nothing else in the text
is affected. What comes out depends on the surrounding text only through the
question whether it continues the words, that is whether it touches them with a
character of U+0600-U+06FF, punctuation included.
-/

namespace Nipoto.Normalize

open Text Text.Regex Text.Gaps

def SameLeft (l l' : Str) : Prop :=
  (l = [] ↔ l' = []) ∧ (2 ≤ l.length ↔ 2 ≤ l'.length) ∧ (l ∈ prefixes ↔ l' ∈ prefixes)

def SameRight (r r' : Str) : Prop :=
  (r = [] ↔ r' = []) ∧ (r ∈ suffixes ↔ r' ∈ suffixes) ∧ (r ∈ verbStems ↔ r' ∈ verbStems)

theorem finalGap_left {l l' : Str} (same : SameLeft l l') (g r : Str) :
    finalGap l g r = finalGap l' g r := by
  obtain ⟨empty, long, listed⟩ := same
  have same : IsHalfSpace l g r ↔ IsHalfSpace l' g r := by
    simp only [IsHalfSpace, ne_eq, empty, long, listed]
  exact congrArg tidyGap (if_congr same rfl rfl)

theorem finalGap_right {r r' : Str} (same : SameRight r r') (l g : Str) :
    finalGap l g r = finalGap l g r' := by
  obtain ⟨empty, suffix, stem⟩ := same
  have same : IsHalfSpace l g r ↔ IsHalfSpace l g r' := by
    simp only [IsHalfSpace, ne_eq, empty, suffix, stem]
  exact congrArg tidyGap (if_congr same rfl rfl)

theorem finalGap_nil_of_not_prefix {l : Str} (other : l ∉ prefixes) (r : Str) : finalGap l [] r = [] := by
  rw [finalGap, halfSpaceGap, if_neg]
  · rfl
  · rintro ⟨_, _, attached | pure | joint⟩
    · exact other attached.2.1
    · exact pure.1 rfl
    · exact joint.1.1 rfl

/-- The run that cells begin either ends in them or goes through to what follows. -/
theorem rightRun_append (c : Cell Char) (cs : List (Cell Char)) :
    (∀ ds, rightRun isBlock (c :: cs ++ ds) = rightRun isBlock (c :: cs)) ∨
      ∃ g x w, c :: cs = (g, x) :: glue w [] ∧ (∀ y ∈ x :: w, isBlock y = true) ∧
        ∀ ds, rightRun isBlock (c :: cs ++ ds) = x :: w ++ onward isBlock ds := by
  induction cs generalizing c with
  | nil =>
      obtain ⟨g, x⟩ := c
      cases inWord : isBlock x with
      | false => exact .inl fun ds => by simp [rightRun_cons, inWord]
      | true => exact .inr ⟨g, x, [], rfl, by simpa using inWord, fun ds => by simp [rightRun_cons, inWord]⟩
  | cons d cs ih =>
      obtain ⟨g, x⟩ := c
      cases inWord : isBlock x with
      | false => exact .inl fun ds => by simp [rightRun_cons, inWord]
      | true =>
          obtain ⟨g', y⟩ := d
          cases g' with
          | cons s g' =>
              refine .inl fun ds => ?_
              rw [List.cons_append, List.cons_append, rightRun_cons, rightRun_cons,
                onward_of_gap isBlock (by simp), onward_of_gap isBlock (by simp)]
          | nil =>
              have step : ∀ ds, rightRun isBlock ((g, x) :: ([], y) :: ds) =
                  x :: rightRun isBlock (([], y) :: ds) := by
                intro ds
                rw [rightRun_cons, inWord, if_pos rfl, onward_glued]
              rcases ih ([], y) with ends | ⟨g', y', w, split, word, through⟩
              · refine .inl fun ds => ?_
                simp only [List.cons_append] at ends ⊢
                rw [step, step, ends]
              · obtain ⟨same, rest⟩ := List.cons.inj split
                obtain ⟨rfl, rfl⟩ := Prod.mk.inj same
                refine .inr ⟨g, x, y :: w, by rw [rest]; rfl, ?_, fun ds => ?_⟩
                · intro z member
                  rcases List.mem_cons.mp member with rfl | later
                  · exact inWord
                  · exact word z later
                · have run := through ds
                  simp only [List.cons_append] at run ⊢
                  rw [step, run]

/-- Cells that come first agree as long as the runs they begin look the same. -/
theorem mapCells_first {cs ds ds' : List (Cell Char)}
    (right : ∀ c later, c :: later <:+ cs →
      SameRight (rightRun isBlock (c :: later ++ ds)) (rightRun isBlock (c :: later ++ ds')))
    (run : Str) :
    mapCells isBlock finalGap run (cs ++ ds) = mapCells isBlock finalGap run (cs ++ ds') ↔
      mapCells isBlock finalGap (lastRun isBlock run cs) ds =
        mapCells isBlock finalGap (lastRun isBlock run cs) ds' := by
  induction cs generalizing run with
  | nil => rfl
  | cons c cs ih =>
      obtain ⟨g, x⟩ := c
      have here := finalGap_right (right (g, x) cs (List.suffix_refl _)) run g
      have tail := ih (fun c later inside => right c later (inside.trans (List.suffix_cons _ _)))
        (leftStep isBlock run g x)
      simp only [List.cons_append] at here ⊢
      rw [mapCells, mapCells, here, lastRun]
      simpa using tail

/-- Inside a word nothing happens. -/
theorem mapCells_glue {l w : Str} (word : ∀ x ∈ w, isBlock x = true)
    (quiet : ∀ w₁ w₂, w = w₁ ++ w₂ → w₂ ≠ [] → l ++ w₁ ∉ prefixes) (cs : List (Cell Char)) :
    mapCells isBlock finalGap l (glue w cs) = glue w (mapCells isBlock finalGap (l ++ w) cs) := by
  induction w generalizing l with
  | nil => simp
  | cons x w ih =>
      have first := quiet [] (x :: w) rfl (by simp)
      rw [List.append_nil] at first
      have step : leftStep isBlock l [] x = l ++ [x] := by simp [leftStep, word x List.mem_cons_self]
      have rest := @ih (l ++ [x]) (fun y member => word y (List.mem_cons_of_mem x member)) (by
        intro w₁ w₂ split nonempty
        rw [List.append_assoc]
        exact quiet (x :: w₁) w₂ (congrArg (x :: ·) split) nonempty)
      rw [glue_cons, mapCells, finalGap_nil_of_not_prefix first, step, rest, List.append_assoc]
      rfl

/-- After two long words that no prefix continues everything is the same. -/
theorem mapCells_long {l l' : Str} (long : 2 ≤ l.length) (long' : 2 ≤ l'.length)
    (other : ∀ z, l ++ z ∉ prefixes) (other' : ∀ z, l' ++ z ∉ prefixes) (cs : List (Cell Char)) :
    mapCells isBlock finalGap l cs = mapCells isBlock finalGap l' cs := by
  induction cs generalizing l l' with
  | nil => rfl
  | cons c cs ih =>
      obtain ⟨g, x⟩ := c
      have same : SameLeft l l' := by
        refine ⟨?_, by simp [long, long'], ?_⟩
        · constructor
          · rintro rfl
            simp at long
          · rintro rfl
            simp at long'
        · have left := other []
          have right := other' []
          rw [List.append_nil] at left right
          simp [left, right]
      rw [mapCells, mapCells, finalGap_left same]
      congr 1
      cases inWord : isBlock x with
      | false => simp [leftStep, inWord]
      | true =>
          cases g with
          | cons s g => simp [leftStep, inWord]
          | nil =>
              simp only [leftStep, inWord, if_true, List.isEmpty_nil]
              refine ih (by simp; omega) (by simp; omega) (fun z => ?_) (fun z => ?_)
              · rw [List.append_assoc]
                exact other _
              · rw [List.append_assoc]
                exact other' _

/-- After `l`, neither a part of `w` nor anything that begins with `w` ends a prefix. -/
def Quiet (w l : Str) : Prop := ∀ z, z ≠ [] → z <+: w ∨ w <+: z → l ++ z ∉ prefixes

/-- What precedes a long word makes no difference after it when both sides are quiet. -/
theorem mapCells_quiet {l l' w : Str} {x : Char} (word : ∀ c ∈ x :: w, isBlock c = true)
    (long : 2 ≤ (x :: w).length) (quiet : Quiet (x :: w) l) (quiet' : Quiet (x :: w) l')
    (cs : List (Cell Char)) :
    mapCells isBlock finalGap (l ++ [x]) (glue w cs) =
      mapCells isBlock finalGap (l' ++ [x]) (glue w cs) := by
  have inside : ∀ {l}, Quiet (x :: w) l → ∀ w₁ w₂, w = w₁ ++ w₂ → w₂ ≠ [] → l ++ [x] ++ w₁ ∉ prefixes := by
    intro l quiet w₁ w₂ split _
    rw [List.append_assoc]
    exact quiet (x :: w₁) (by simp) (.inl ⟨w₂, by rw [split]; rfl⟩)
  have beyond : ∀ {l}, Quiet (x :: w) l → ∀ z, l ++ [x] ++ w ++ z ∉ prefixes := by
    intro l quiet z
    rw [List.append_assoc, List.append_assoc]
    exact quiet ([x] ++ (w ++ z)) (by simp) (.inr ⟨z, by simp⟩)
  have tail : ∀ c ∈ w, isBlock c = true := fun c member => word c (List.mem_cons_of_mem x member)
  have size : ∀ l : Str, 2 ≤ (l ++ [x] ++ w).length := by
    intro l
    simp only [List.length_append, List.length_cons, List.length_nil] at long ⊢
    omega
  rw [mapCells_glue tail (inside quiet), mapCells_glue tail (inside quiet'),
    mapCells_long (size l) (size l') (beyond quiet) (beyond quiet')]

theorem suffix_text {cs : List (Cell Char)} {g w : Str} {x : Char}
    (inside : (g, x) :: glue w [] <:+ cs) : x :: w <:+ render cs [] := by
  obtain ⟨first, rfl⟩ := inside
  rw [render_append, render, render_glue, render, List.append_nil, render_last]
  exact ⟨render first [] ++ g, by simp⟩

/-- The cells of a text `u` with the word `a :: p` after it. -/
def cellsUpTo (u : Str) (a : Char) (p : Str) : List (Cell Char) :=
  (cut isSep u).1 ++ ((cut isSep u).2, a) :: glue p []

section Around

variable {u v p w s s' : Str} {a x : Char}

theorem cellsUpTo_proper (word : ∀ c ∈ a :: p, isBlock c = true) : Proper isSep (cellsUpTo u a p) := by
  have solid : ∀ c ∈ a :: p, isSep c = false := fun c member => isSep_of_isBlock (word c member)
  have inWord : Proper isSep (glue p []) :=
    Proper.glue isSep (fun c member => solid c (List.mem_cons_of_mem a member)) (by simp [Proper])
  exact (cut_proper isSep u).1.append isSep (.cons isSep (cut_proper isSep u).2 (solid a List.mem_cons_self) inWord)

theorem render_cellsUpTo : render (cellsUpTo u a p) [] = u ++ a :: p := by
  rw [cellsUpTo, render_append, render, render_glue, render, render_last, List.append_nil,
    ← List.append_assoc, ← render_last, render_cut]

theorem lastRun_cellsUpTo (word : ∀ c ∈ a :: p, isBlock c = true) :
    lastRun isBlock [] (cellsUpTo u a p) = touching isBlock u.reverse ++ a :: p := by
  have read := lastRun_text isBlock_of_isSep (@cellsUpTo_proper u p a word) []
  rw [touching_nil, render_cellsUpTo, List.reverse_append, List.append_nil,
    touching_word isBlock word] at read
  exact read

theorem after_proper (word : ∀ c ∈ x :: w, isBlock c = true) :
    Proper isSep (glue w (cut isSep v).1) :=
  Proper.glue isSep (fun c member => isSep_of_isBlock (word c (List.mem_cons_of_mem x member)))
    (cut_proper isSep v).1

theorem render_around :
    render (cellsUpTo u a p ++ (s, x) :: glue w (cut isSep v).1) (cut isSep v).2 =
      u ++ (a :: p ++ (s ++ (x :: w ++ v))) := by
  rw [render_append, render_last, render_cellsUpTo, render, render_glue, render_cut]
  simp

theorem rightRun_around (word : ∀ c ∈ x :: w, isBlock c = true) :
    rightRun isBlock ((s, x) :: glue w (cut isSep v).1) = x :: w ++ v.takeWhile isBlock := by
  have read := takeWhile_render isSep isBlock isBlock_of_isSep (cut_proper isSep v).1
    (cut_proper isSep v).2
  rw [render_cut] at read
  rw [rightRun_cons, word x List.mem_cons_self, if_pos rfl,
    onward_glue isBlock (fun c member => word c (List.mem_cons_of_mem x member)), ← read]
  rfl

/-- The separator between two words decides about the normal form on its own,
    provided no rule elsewhere sees whether the two words touch. -/
theorem gapSteps_separator (word : ∀ c ∈ a :: p, isBlock c = true)
    (word' : ∀ c ∈ x :: w, isBlock c = true) (gap : IsGap isSep s) (gap' : IsGap isSep s')
    (right : ∀ z, z ≠ [] → z <:+ u ++ a :: p →
      SameRight (z ++ through s (x :: w ++ v.takeWhile isBlock))
        (z ++ through s' (x :: w ++ v.takeWhile isBlock)))
    (left : ∀ cs,
      mapCells isBlock finalGap (through s (touching isBlock u.reverse ++ a :: p) ++ [x]) (glue w cs) =
        mapCells isBlock finalGap (through s' (touching isBlock u.reverse ++ a :: p) ++ [x])
          (glue w cs)) :
    gapSteps (u ++ (a :: p ++ (s ++ (x :: w ++ v)))) =
        gapSteps (u ++ (a :: p ++ (s' ++ (x :: w ++ v)))) ↔
      finalGap (touching isBlock u.reverse ++ a :: p) s (x :: w ++ v.takeWhile isBlock) =
        finalGap (touching isBlock u.reverse ++ a :: p) s' (x :: w ++ v.takeWhile isBlock) := by
  have proper := cellsUpTo_proper (u := u) word
  have after := after_proper (v := v) word'
  have solid := isSep_of_isBlock (word' x List.mem_cons_self)
  have wholeProper : ∀ {t}, IsGap isSep t →
      Proper isSep (cellsUpTo u a p ++ (t, x) :: glue w (cut isSep v).1) :=
    fun gap => proper.append isSep (.cons isSep gap solid after)
  have first := lastRun_cellsUpTo (u := u) word
  have step : ∀ l t, leftStep isBlock l t x = through t l ++ [x] := by
    intro l t
    simp only [leftStep, word' x List.mem_cons_self, if_true, through]
    split <;> rfl
  have seen : ∀ t, onward isBlock ((t, x) :: glue w (cut isSep v).1) =
      through t (x :: w ++ v.takeWhile isBlock) := by
    intro t
    rw [onward_cons, rightRun_around word']
  have same : ∀ c later, c :: later <:+ cellsUpTo u a p →
      SameRight (rightRun isBlock (c :: later ++ (s, x) :: glue w (cut isSep v).1))
        (rightRun isBlock (c :: later ++ (s', x) :: glue w (cut isSep v).1)) := by
    intro c later inside
    rcases rightRun_append c later with ends | ⟨g, y, z, split, _, through⟩
    · rw [ends, ends]
      exact ⟨Iff.rfl, Iff.rfl, Iff.rfl⟩
    · rw [through, through, seen, seen]
      exact right (y :: z) (by simp) (render_cellsUpTo ▸ suffix_text (split ▸ inside))
  obtain ⟨⟨g, y⟩, cs, cells⟩ : ∃ c cs, cellsUpTo u a p = c :: cs :=
    List.exists_cons_of_ne_nil (by simp [cellsUpTo])
  have split := gapSteps_eq_iff (cells ▸ wholeProper gap) (cut_proper isSep v).2
    (cells ▸ wholeProper gap') (cut_proper isSep v).2
  rw [cells, lastRun, startRun_gap] at first
  rw [← render_around, ← render_around, cells]
  refine split.trans ?_
  have inner := mapCells_first
    (fun c later inside => same c later (cells ▸ inside.trans (List.suffix_cons _ _))) (startRun y)
  refine inner.trans ?_
  rw [first, mapCells, mapCells, rightRun_around word', rightRun_around word', step, step, left]
  simp

end Around

end Nipoto.Normalize
