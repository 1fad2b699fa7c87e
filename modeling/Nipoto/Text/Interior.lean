import Nipoto.Text.Gaps

/-! # Statements about every gap

The gaps of a text, all or only those between two solids, can be found in its cells
or by splitting the text; what holds of all the ones holds of all the others.
-/

namespace Nipoto.Text.Gaps

variable {α : Type} (sep word : α → Bool)

/-- `P` of every gap of some cells, with the runs that touch it. -/
def EveryGap (P : (left gap right : List α) → Prop) : List α → List (Cell α) → Prop
  | _, [] => True
  | run, (g, x) :: cs =>
      P run g (rightRun word ((g, x) :: cs)) ∧ EveryGap P (leftStep word run g x) cs

/-- A gap of a text between two solids. -/
structure Interior (a g b text : List α) : Prop where
  split : text = a ++ (g ++ b)
  gap : IsGap sep g
  left : ∃ x ∈ a.getLast?, sep x = false
  right : ∃ x ∈ b.head?, sep x = false

/-- A gap of a text that no separator touches; it may be empty, and at an end. -/
structure Maximal (a g b text : List α) : Prop where
  split : text = a ++ (g ++ b)
  gap : IsGap sep g
  left : ∀ x ∈ a.getLast?, sep x = false
  right : ∀ x ∈ b.head?, sep x = false

variable {sep word}

theorem mapCells_eq_iff {h k : Pass α} {run : List α} {cs : List (Cell α)} :
    mapCells word h run cs = mapCells word k run cs ↔
      EveryGap word (fun l g r => h l g r = k l g r) run cs := by
  induction cs generalizing run with
  | nil => simp [mapCells, EveryGap]
  | cons c cs ih =>
      obtain ⟨g, x⟩ := c
      simp [mapCells, EveryGap, ih]

theorem EveryGap.congr {P Q : (left gap right : List α) → Prop} {cs : List (Cell α)}
    (proper : Proper sep cs) (same : ∀ l g r, IsGap sep g → (P l g r ↔ Q l g r)) (run : List α) :
    EveryGap word P run cs ↔ EveryGap word Q run cs := by
  induction cs generalizing run with
  | nil => rfl
  | cons c cs ih =>
      obtain ⟨g, x⟩ := c
      exact and_congr (same _ _ _ (proper.head sep).1) (ih (proper.tail sep) _)

theorem everyGap_iff_split {P : (left gap right : List α) → Prop} {run : List α}
    {cs : List (Cell α)} :
    EveryGap word P run cs ↔ ∀ ds g x es, cs = ds ++ (g, x) :: es →
      P (lastRun word run ds) g (rightRun word ((g, x) :: es)) := by
  induction cs generalizing run with
  | nil => simp [EveryGap]
  | cons c cs ih =>
      obtain ⟨g, x⟩ := c
      rw [EveryGap, ih]
      constructor
      · rintro ⟨first, later⟩ ds g' y es split
        cases ds with
        | nil =>
            obtain ⟨same, rfl⟩ := List.cons.inj split
            obtain ⟨rfl, rfl⟩ := Prod.mk.inj same
            exact first
        | cons d ds =>
            obtain ⟨rfl, rest⟩ := List.cons.inj split
            exact later ds g' y es rest
      · intro every
        exact ⟨every [] g x cs rfl, fun ds g' y es rest => every ((g, x) :: ds) g' y es (by rw [rest]; rfl)⟩

theorem rightRun_apart {g : List α} (some : g ≠ []) (c : Cell α) (cs : List (Cell α)) (y : α) (ds : List (Cell α)) :
    rightRun word (c :: (cs ++ (g, y) :: ds)) = rightRun word (c :: cs) := by
  induction cs generalizing c with
  | nil => rw [List.nil_append, rightRun_cons, onward_of_gap word some, rightRun_cons, onward_nil]
  | cons d cs ih =>
      obtain ⟨h, x⟩ := d
      cases h with
      | nil => rw [List.cons_append, rightRun_cons, rightRun_cons, onward_glued, onward_glued, ih ([], x)]
      | cons a h =>
          rw [List.cons_append, rightRun_cons, rightRun_cons, onward_of_gap word (by simp),
            onward_of_gap word (by simp)]

/-- A pass treats what stands before a gap and what stands after it on their own. -/
theorem mapCells_append {g : List α} (some : g ≠ []) (k : Pass α) (run : List α) (cs : List (Cell α)) (y : α)
    (ds : List (Cell α)) :
    mapCells word k run (cs ++ (g, y) :: ds) =
      mapCells word k run cs ++ (k (lastRun word run cs) g (rightRun word ((g, y) :: ds)), y) ::
        mapCells word k (leftStep word [] g y) ds := by
  induction cs generalizing run with
  | nil => simp [mapCells, lastRun, leftStep, some]
  | cons c cs ih =>
      obtain ⟨h, x⟩ := c
      rw [List.cons_append, mapCells, rightRun_apart some, ih, mapCells, lastRun]
      rfl

/-- The solids of a text are those of its cells. -/
theorem filter_render {cs : List (Cell α)} (proper : Proper sep cs) {last : List α} (gapEnd : IsGap sep last) :
    (render cs last).filter (!sep ·) = cs.map Prod.snd := by
  have gone : ∀ {g : List α}, IsGap sep g → g.filter (!sep ·) = [] := by
    intro g gap
    rw [List.filter_eq_nil_iff]
    intro c member
    simp [gap c member]
  induction cs with
  | nil => exact gone gapEnd
  | cons c cs ih =>
      obtain ⟨g, x⟩ := c
      rw [render, List.filter_append, gone (proper.head sep).1, List.nil_append,
        List.filter_cons_of_pos (by simp [(proper.head sep).2]), ih (proper.tail sep)]
      rfl

theorem cut_solid_end {a : List α} (solid : ∀ x ∈ a.getLast?, sep x = false) : (cut sep a).2 = [] := by
  by_contra filled
  have text := render_cut sep a
  rw [render_last] at text
  have ends := congrArg List.getLast? text
  rw [List.getLast?_append_of_ne_nil _ filled, List.getLast?_eq_some_getLast filled] at ends
  have separator := (cut_proper sep a).2 _ (List.getLast_mem filled)
  rw [solid _ ends.symm] at separator
  exact absurd separator (by simp)

theorem render_solid_end {cs : List (Cell α)} (proper : Proper sep cs) (some : cs ≠ []) :
    ∃ x ∈ (render cs []).getLast?, sep x = false := by
  obtain ⟨ds, ⟨g, x⟩, rfl⟩ : ∃ ds c, cs = ds ++ [c] :=
    ⟨cs.dropLast, cs.getLast some, (List.dropLast_concat_getLast some).symm⟩
  refine ⟨x, ?_, (proper (g, x) (by simp)).2⟩
  rw [render_append, render_last]
  simp [render]

theorem render_end {cs : List (Cell α)} (proper : Proper sep cs) :
    ∀ x ∈ (render cs []).getLast?, sep x = false := by
  cases cs with
  | nil => simp [render]
  | cons c cs =>
      obtain ⟨y, atEnd, solid⟩ := render_solid_end proper (by simp)
      intro x last
      rwa [Option.mem_unique last atEnd]

theorem takeWhile_dropWhile (t : List α) : (t.dropWhile word).takeWhile word = [] := by
  induction t with
  | nil => rfl
  | cons c t ih => cases inWord : word c <;> simp [inWord, ih]

/-- The run that ends a text, cut off. -/
theorem touching_split (a : List α) : ∃ t, a = t ++ touching word a.reverse ∧ touching word t.reverse = [] := by
  refine ⟨(a.reverse.dropWhile word).reverse, ?_, ?_⟩
  · rw [touching, ← List.reverse_append, List.takeWhile_append_dropWhile, List.reverse_reverse]
  · rw [touching, List.reverse_reverse, List.reverse_eq_nil_iff]
    exact takeWhile_dropWhile a.reverse

theorem touching_append {w : List α} (inWord : ∀ x ∈ w, word x = true) (a : List α) :
    touching word (a ++ w).reverse = touching word a.reverse ++ w := by
  rw [List.reverse_append, touching_word word inWord]

theorem Interior.maximal {a g b text : List α} (interior : Interior sep a g b text) : Maximal sep a g b text := by
  obtain ⟨split, gap, ⟨x, atEnd, left⟩, ⟨y, atHead, right⟩⟩ := interior
  refine ⟨split, gap, fun c last => ?_, fun c first => ?_⟩
  · rwa [Option.mem_unique last atEnd]
  · rwa [Option.mem_unique first atHead]

/-- A separator of a text stands in one of its gaps. -/
theorem maximal_of_separator {c : α} (separator : sep c = true) (a b : List α) :
    ∃ a' g h b', a = a' ++ g ∧ b = h ++ b' ∧ Maximal sep a' (g ++ c :: h) b' (a ++ c :: b) := by
  have front := cut_proper sep a
  have textA : a = render (cut sep a).1 [] ++ (cut sep a).2 := by
    rw [← render_last, render_cut]
  have textB : b = b.takeWhile sep ++ b.dropWhile sep := List.takeWhile_append_dropWhile.symm
  refine ⟨_, _, _, _, textA, textB, ?_, ?_, render_end front.1, ?_⟩
  · rw [List.append_assoc, List.cons_append, ← textB, ← List.append_assoc, ← textA]
  · intro d member
    simp only [List.mem_append, List.mem_cons] at member
    rcases member with inFront | rfl | inBack
    · exact front.2 d inFront
    · exact separator
    · exact List.mem_takeWhile_imp inBack
  · intro x atHead
    have stops := List.head?_dropWhile_not sep b
    rw [atHead] at stops
    simpa using stops

/-- Both sides of a gap can be cut, and together they are the cells of the text. -/
theorem cells_of_maximal {a g b last : List α} {cs : List (Cell α)} (proper : Proper sep cs) (gapEnd : IsGap sep last)
    (maximal : Maximal sep a g b (render cs last)) :
    (∃ ds y es, cs = ds ++ (g, y) :: es ∧ a = render ds [] ∧ b = y :: render es last) ∨
      (a = render cs [] ∧ g = last ∧ b = []) := by
  obtain ⟨split, gap, left, right⟩ := maximal
  have front := cut_proper sep a
  have textA := render_cut sep a
  rw [cut_solid_end left] at textA
  cases b with
  | nil =>
      have texts : render cs last = render (cut sep a).1 g := by
        rw [split, List.append_nil, render_last, textA]
      obtain ⟨rfl, rfl⟩ := render_injective sep proper gapEnd front.1 gap texts
      exact .inr ⟨textA.symm, rfl, rfl⟩
  | cons y t =>
      have back := cut_proper sep t
      have whole : Proper sep ((cut sep a).1 ++ (g, y) :: (cut sep t).1) :=
        front.1.append sep (.cons sep gap (right y rfl) back.1)
      have texts : render cs last = render ((cut sep a).1 ++ (g, y) :: (cut sep t).1) (cut sep t).2 := by
        rw [split, render_append, render_last, textA, render, render_cut]
      obtain ⟨cells, rfl⟩ := render_injective sep proper gapEnd whole back.2 texts
      exact .inl ⟨_, y, _, cells, textA.symm, by rw [render_cut]⟩

theorem interior_of_cells {g h last : List α} {x y : α} {ds es : List (Cell α)}
    (proper : Proper sep ((g, x) :: (ds ++ (h, y) :: es))) :
    Interior sep (render ((g, x) :: ds) []) h (y :: render es last)
      (render ((g, x) :: (ds ++ (h, y) :: es)) last) := by
  have front : Proper sep ((g, x) :: ds) := Proper.front sep (List.cons_append ▸ proper)
  have here := proper (h, y) (by simp)
  refine ⟨?_, here.1, render_solid_end front (by simp), ⟨y, rfl, here.2⟩⟩
  rw [← List.cons_append, render_append, render_last ((g, x) :: ds)]
  rfl

/-- An inner gap comes after the first cell and before another. -/
theorem cells_of_interior {a g h b last : List α} {x : α} {cs : List (Cell α)}
    (proper : Proper sep ((g, x) :: cs)) (gapEnd : IsGap sep last)
    (interior : Interior sep a h b (render ((g, x) :: cs) last)) :
    ∃ ds y es, cs = ds ++ (h, y) :: es ∧ a = render ((g, x) :: ds) [] ∧ b = y :: render es last := by
  obtain ⟨_, atEnd, _⟩ := interior.left
  obtain ⟨_, atHead, _⟩ := interior.right
  rcases cells_of_maximal proper gapEnd interior.maximal with ⟨ds, y, es, split, rfl, rfl⟩ | ⟨_, _, rfl⟩
  · cases ds with
    | nil => simp [render] at atEnd
    | cons d ds =>
        obtain ⟨rfl, rest⟩ := List.cons.inj split
        exact ⟨ds, y, es, rest, rfl, rfl⟩
  · simp at atHead

theorem mapCells_split (k : Pass α) (run : List α) (ds : List (Cell α)) (h : List α) (y : α) (es : List (Cell α)) :
    ∃ before after, before.length = ds.length ∧
      mapCells word k run (ds ++ (h, y) :: es) =
        before ++ (k (lastRun word run ds) h (rightRun word ((h, y) :: es)), y) :: after := by
  induction ds generalizing run with
  | nil => exact ⟨[], _, rfl, rfl⟩
  | cons d ds ih =>
      obtain ⟨g, x⟩ := d
      obtain ⟨before, after, size, split⟩ := ih (leftStep word run g x)
      exact ⟨_ :: before, after, congrArg (· + 1) size, congrArg (_ :: ·) split⟩

section Reading

variable (apart : ∀ c, sep c = true → word c = false)

include apart

theorem lastRun_text {cs : List (Cell α)} (proper : Proper sep cs) (before : List α) :
    lastRun word (touching word before) cs = touching word ((render cs []).reverse ++ before) := by
  induction cs generalizing before with
  | nil => rfl
  | cons c cs ih =>
      obtain ⟨g, x⟩ := c
      rw [lastRun, ← touching_leftStep sep word apart (proper.head sep).1 x before, ih (proper.tail sep)]
      simp [render]

/-- The runs that touch a gap, read off the text and off the cells. -/
theorem runs_of_cells {h last : List α} {y : α} (ds : List (Cell α)) {es : List (Cell α)}
    (proper : Proper sep (ds ++ (h, y) :: es)) (gapEnd : IsGap sep last) :
    touching word (render ds []).reverse = lastRun word [] ds ∧
      (y :: render es last).takeWhile word = rightRun word ((h, y) :: es) := by
  have left := lastRun_text apart (proper.front sep) []
  have right := takeWhile_render sep word apart ((proper.back sep).solid sep) gapEnd
  rw [touching_nil, List.append_nil] at left
  rw [onward_glued] at right
  exact ⟨left.symm, right⟩

/-- A statement about every gap of some cells, read off the text they write. -/
theorem everyGap_iff_maximal {P : (left gap right : List α) → Prop} {cs : List (Cell α)} {last : List α}
    (proper : Proper sep cs) (gapEnd : IsGap sep last) :
    EveryGap word P [] cs ∧ P (lastRun word [] cs) last [] ↔
      ∀ a g b, Maximal sep a g b (render cs last) → P (touching word a.reverse) g (b.takeWhile word) := by
  have ends : touching word (render cs []).reverse = lastRun word [] cs := by
    have run := lastRun_text apart proper []
    rw [touching_nil, List.append_nil] at run
    exact run.symm
  rw [everyGap_iff_split]
  constructor
  · rintro ⟨every, ending⟩ a g b maximal
    rcases cells_of_maximal proper gapEnd maximal with ⟨ds, y, es, rfl, rfl, rfl⟩ | ⟨rfl, rfl, rfl⟩
    · obtain ⟨left, right⟩ := runs_of_cells apart ds proper gapEnd
      rw [left, right]
      exact every ds g y es rfl
    · rw [ends]
      exact ending
  · intro every
    constructor
    · rintro ds g y es rfl
      obtain ⟨left, right⟩ := runs_of_cells apart ds proper gapEnd
      have here := (proper.back sep).head sep
      rw [← left, ← right]
      refine every _ g _ ⟨?_, here.1, render_end (proper.front sep), by simp [here.2]⟩
      rw [render_append, render_last]
      rfl
    · rw [← ends]
      refine every _ last [] ⟨?_, gapEnd, render_end proper, by simp⟩
      rw [render_last, List.append_nil]

/-- The inner gaps of a text are those of its cells after the first. -/
theorem everyGap_iff_interior {P : (left gap right : List α) → Prop} {g last : List α} {x : α}
    {cs : List (Cell α)} (proper : Proper sep ((g, x) :: cs)) (gapEnd : IsGap sep last) :
    EveryGap word P (leftStep word [] g x) cs ↔
      ∀ a h b, Interior sep a h b (render ((g, x) :: cs) last) →
        P (touching word a.reverse) h (b.takeWhile word) := by
  rw [everyGap_iff_split]
  constructor
  · intro every a h b interior
    obtain ⟨ds, y, es, rfl, rfl, rfl⟩ := cells_of_interior proper gapEnd interior
    obtain ⟨left, right⟩ := runs_of_cells apart ((g, x) :: ds) proper gapEnd
    rw [left, right]
    exact every ds h y es rfl
  · rintro every ds h y es rfl
    obtain ⟨left, right⟩ := runs_of_cells apart ((g, x) :: ds) proper gapEnd
    rw [lastRun] at left
    rw [← left, ← right]
    exact every _ h _ (interior_of_cells proper)

/-- An inner gap after a pass is what the pass makes of the gap at the same place. -/
theorem gap_of_interior {k : Pass α} {g last a h b a' o b' : List α} {x : α} {cs : List (Cell α)}
    (proper : Proper sep ((g, x) :: cs)) (gapEnd : IsGap sep last)
    (properAfter : Proper sep (([], x) :: mapCells word k (leftStep word [] g x) cs))
    (before : Interior sep a h b (render ((g, x) :: cs) last))
    (after : Interior sep a' o b' (render (([], x) :: mapCells word k (leftStep word [] g x) cs) []))
    (aligned : (a.filter (!sep ·)).length = (a'.filter (!sep ·)).length) :
    o = k (touching word a.reverse) h (b.takeWhile word) := by
  obtain ⟨ds, y, es, rfl, rfl, rfl⟩ := cells_of_interior proper gapEnd before
  obtain ⟨left, right⟩ := runs_of_cells apart ((g, x) :: ds) proper gapEnd
  obtain ⟨ds', y', es', split', rfl, rfl⟩ := cells_of_interior properAfter (by simp [IsGap]) after
  obtain ⟨front, back, size, split⟩ := @mapCells_split α word k (leftStep word [] g x) ds h y es
  have frontSize : ∀ {g : List α} {ds : List (Cell α)}, Proper sep ((g, x) :: ds) →
      ((render ((g, x) :: ds) []).filter (!sep ·)).length = ds.length + 1 := by
    intro g ds proper
    rw [filter_render proper (by simp [IsGap])]
    simp
  rw [frontSize fun c member => proper c (by grind), frontSize fun c member => properAfter c (by grind)] at aligned
  rw [split] at split'
  have same := (List.append_inj split' (by omega)).2
  rw [left, right]
  exact (Prod.mk.inj (List.cons.inj same).1).1.symm

end Reading

end Nipoto.Text.Gaps
