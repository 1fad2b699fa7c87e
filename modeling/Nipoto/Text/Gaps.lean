import Mathlib.Data.List.Basic
import Mathlib.Data.List.TakeWhile

/-! # Texts as solid symbols and the gaps between them

A symbol is a separator or solid. A text is then a list of cells, each a gap (a
possibly empty run of separators) with the solid that ends it, and a last gap.
A rewriting pass that only touches gaps is a function of each gap and of the
runs of word symbols that touch it on the left and on the right; two such passes
compose gap by gap as long as the first one keeps these runs.
-/

namespace Nipoto.Text.Gaps

variable {α : Type} (sep word : α → Bool)

abbrev Cell (α : Type) := List α × α

def render : List (Cell α) → List α → List α
  | [], last => last
  | (g, x) :: cs, last => g ++ x :: render cs last

/-- Cut a text into its cells and its last gap. -/
def cut : List α → List (Cell α) × List α
  | [] => ([], [])
  | c :: t =>
      if sep c then
        match cut t with
        | ([], last) => ([], c :: last)
        | ((g, x) :: cs, last) => ((c :: g, x) :: cs, last)
      else (([], c) :: (cut t).1, (cut t).2)

def IsGap (g : List α) : Prop := ∀ c ∈ g, sep c = true

/-- Cells whose gaps hold separators only and whose solids are solid. -/
def Proper (cs : List (Cell α)) : Prop := ∀ c ∈ cs, IsGap sep c.1 ∧ sep c.2 = false

theorem Proper.head {g x} {cs : List (Cell α)} (h : Proper sep ((g, x) :: cs)) :
    IsGap sep g ∧ sep x = false := h (g, x) List.mem_cons_self

theorem Proper.tail {c} {cs : List (Cell α)} (h : Proper sep (c :: cs)) : Proper sep cs :=
  fun d member => h d (List.mem_cons_of_mem c member)

theorem Proper.cons {g x} {cs : List (Cell α)} (gap : IsGap sep g) (solid : sep x = false) (rest : Proper sep cs) :
    Proper sep ((g, x) :: cs) := by
  intro c member
  rcases List.mem_cons.mp member with rfl | member
  · exact ⟨gap, solid⟩
  · exact rest c member

theorem Proper.append {cs ds : List (Cell α)} (front : Proper sep cs) (back : Proper sep ds) :
    Proper sep (cs ++ ds) := by
  intro c member
  rcases List.mem_append.mp member with inFront | inBack
  · exact front c inFront
  · exact back c inBack

theorem Proper.front {cs ds : List (Cell α)} (h : Proper sep (cs ++ ds)) : Proper sep cs :=
  fun c member => h c (List.mem_append_left ds member)

theorem Proper.back {cs ds : List (Cell α)} (h : Proper sep (cs ++ ds)) : Proper sep ds :=
  fun c member => h c (List.mem_append_right cs member)

theorem Proper.solid {g x} {cs : List (Cell α)} (h : Proper sep ((g, x) :: cs)) :
    Proper sep (([], x) :: cs) := .cons sep (by simp [IsGap]) (h.head sep).2 (h.tail sep)

theorem render_append (cs ds : List (Cell α)) (last : List α) :
    render (cs ++ ds) last = render cs (render ds last) := by
  induction cs with
  | nil => rfl
  | cons c cs ih => simp only [List.cons_append, render, ih]

theorem render_last (cs : List (Cell α)) (last : List α) : render cs last = render cs [] ++ last := by
  induction cs with
  | nil => rfl
  | cons c cs ih => simp [render, ih]

theorem mem_render {cs : List (Cell α)} {last : List α} {a : α} :
    a ∈ render cs last ↔ (∃ c ∈ cs, a ∈ c.1 ∨ a = c.2) ∨ a ∈ last := by
  induction cs with
  | nil => simp [render]
  | cons c cs ih =>
      obtain ⟨g, x⟩ := c
      simp only [render, List.mem_append, List.mem_cons, ih, exists_eq_or_imp, or_assoc]

theorem render_cut (t : List α) : render (cut sep t).1 (cut sep t).2 = t := by
  induction t with
  | nil => rfl
  | cons c t ih =>
      simp only [cut]
      split
      · cases h : cut sep t with
        | mk cs last =>
            rw [h] at ih
            cases cs with
            | nil => exact congrArg (c :: ·) ih
            | cons d cs => exact congrArg (c :: ·) ih
      · exact congrArg (c :: ·) ih

theorem cut_proper (t : List α) : Proper sep (cut sep t).1 ∧ IsGap sep (cut sep t).2 := by
  induction t with
  | nil => exact ⟨by simp [cut, Proper], by simp [cut, IsGap]⟩
  | cons c t ih =>
      simp only [cut]
      split
      · rename_i separator
        cases h : cut sep t with
        | mk cs last =>
            rw [h] at ih
            cases cs with
            | nil => exact ⟨by simp [Proper], by simpa [IsGap, separator] using ih.2⟩
            | cons d cs =>
                refine ⟨?_, ih.2⟩
                intro e member
                rcases List.mem_cons.mp member with rfl | member
                · exact ⟨by simpa [IsGap, separator] using (ih.1 d List.mem_cons_self).1,
                    (ih.1 d List.mem_cons_self).2⟩
                · exact ih.1 e (List.mem_cons_of_mem d member)
      · rename_i solid
        refine ⟨?_, ih.2⟩
        intro e member
        rcases List.mem_cons.mp member with rfl | member
        · exact ⟨by simp [IsGap], by simpa using solid⟩
        · exact ih.1 e member

/-- A text is a gap, or it is written from some cells. -/
theorem text_cases {P : List α → Prop} (gap : ∀ g, IsGap sep g → P g)
    (cells : ∀ g x cs last, Proper sep ((g, x) :: cs) → IsGap sep last → P (render ((g, x) :: cs) last)) (t : List α) :
    P t := by
  obtain ⟨proper, gapEnd⟩ := cut_proper sep t
  rw [← render_cut sep t]
  cases split : (cut sep t).1 with
  | nil => exact gap _ gapEnd
  | cons c cs => exact cells c.1 c.2 cs _ (split ▸ proper) gapEnd

theorem cut_gap_append {g : List α} (gap : IsGap sep g) (x : α) (solid : sep x = false) (t : List α) :
    cut sep (g ++ x :: t) = ((g, x) :: (cut sep t).1, (cut sep t).2) := by
  induction g with
  | nil => simp [cut, solid]
  | cons c g ih =>
      have rest := ih (fun d member => gap d (List.mem_cons_of_mem c member))
      simp only [List.cons_append, cut, gap c List.mem_cons_self, if_true, rest]

theorem cut_gap {g : List α} (gap : IsGap sep g) : cut sep g = ([], g) := by
  induction g with
  | nil => rfl
  | cons c g ih =>
      have rest := ih (fun d member => gap d (List.mem_cons_of_mem c member))
      simp only [cut, gap c List.mem_cons_self, if_true, rest]

/-- Cutting recovers proper cells, so a text has only one proper form. -/
theorem cut_render {cs : List (Cell α)} {last : List α} (proper : Proper sep cs)
    (gap : IsGap sep last) : cut sep (render cs last) = (cs, last) := by
  induction cs with
  | nil => exact cut_gap sep gap
  | cons c cs ih =>
      obtain ⟨g, x⟩ := c
      simp only [render]
      rw [cut_gap_append sep (proper.head sep).1 x (proper.head sep).2, ih (proper.tail sep)]

theorem render_injective {cs ds : List (Cell α)} {last last' : List α}
    (left : Proper sep cs) (leftGap : IsGap sep last) (right : Proper sep ds)
    (rightGap : IsGap sep last') (same : render cs last = render ds last') :
    cs = ds ∧ last = last' := by
  have cuts := cut_render sep left leftGap
  rw [same, cut_render sep right rightGap] at cuts
  exact ⟨(Prod.mk.inj cuts).1.symm, (Prod.mk.inj cuts).2.symm⟩

theorem render_eq_iff {cs ds : List (Cell α)} (left : Proper sep cs) (right : Proper sep ds) :
    render cs [] = render ds [] ↔ cs = ds := by
  constructor
  · intro same
    exact (render_injective sep left (by simp [IsGap]) right (by simp [IsGap]) same).1
  · rintro rfl
    rfl

/-- A word written without gaps in front of further cells. -/
def glue (w : List α) (cs : List (Cell α)) : List (Cell α) := w.map (fun x => ([], x)) ++ cs

@[simp] theorem glue_nil (cs : List (Cell α)) : glue [] cs = cs := rfl

@[simp] theorem glue_cons (x : α) (w : List α) (cs : List (Cell α)) :
    glue (x :: w) cs = ([], x) :: glue w cs := rfl

@[simp] theorem render_glue (w : List α) (cs : List (Cell α)) (last : List α) :
    render (glue w cs) last = w ++ render cs last := by
  induction w with
  | nil => rfl
  | cons x w ih => simp only [glue_cons, render, ih, List.nil_append, List.cons_append]

theorem Proper.glued {w : List α} {cs : List (Cell α)} (h : Proper sep (glue w cs)) :
    Proper sep cs := Proper.back sep h

theorem Proper.glue {w : List α} (solid : ∀ x ∈ w, sep x = false) {cs : List (Cell α)}
    (h : Proper sep cs) : Proper sep (glue w cs) := by
  refine .append sep ?_ h
  intro c inWord
  obtain ⟨x, xIn, rfl⟩ := List.mem_map.mp inWord
  exact ⟨by simp [IsGap], solid x xIn⟩

theorem glue_append (w v : List α) (cs : List (Cell α)) : glue (w ++ v) cs = glue w (glue v cs) := by
  simp [glue]

/-- The run of word symbols that begins with the first solid. -/
def rightRun : List (Cell α) → List α
  | [] => []
  | (_, x) :: cs =>
      if word x then x :: (if cs.head?.any (·.1.isEmpty) then rightRun cs else []) else []

/-- The word symbols that follow without a gap. -/
def onward (cs : List (Cell α)) : List α :=
  if cs.head?.any (·.1.isEmpty) then rightRun word cs else []

theorem rightRun_cons (g : List α) (x : α) (cs : List (Cell α)) :
    rightRun word ((g, x) :: cs) = if word x then x :: onward word cs else [] := rfl

@[simp] theorem onward_nil : onward word ([] : List (Cell α)) = [] := rfl

theorem onward_glued (x : α) (cs : List (Cell α)) :
    onward word (([], x) :: cs) = rightRun word (([], x) :: cs) := by simp [onward]

theorem onward_of_gap {g : List α} (apart : g ≠ []) (x : α) (cs : List (Cell α)) :
    onward word ((g, x) :: cs) = [] := by simp [onward, apart]

/-- The cells of a run, and what is left once it ends. -/
theorem onward_split (cs : List (Cell α)) :
    ∃ ds, cs = glue (onward word cs) ds ∧ onward word ds = [] := by
  induction cs with
  | nil => exact ⟨[], rfl, rfl⟩
  | cons c cs ih =>
      obtain ⟨g, x⟩ := c
      cases g with
      | cons s g => exact ⟨(s :: g, x) :: cs, by simp [onward], by simp [onward]⟩
      | nil =>
          cases inWord : word x with
          | false => exact ⟨([], x) :: cs, by simp [onward, rightRun, inWord],
              by simp [onward, rightRun, inWord]⟩
          | true =>
              obtain ⟨ds, split, ended⟩ := ih
              refine ⟨ds, ?_, ended⟩
              rw [onward_glued, rightRun_cons, inWord]
              exact congrArg (([], x) :: ·) split

theorem onward_glue {w : List α} (inWord : ∀ x ∈ w, word x = true) (cs : List (Cell α)) :
    onward word (glue w cs) = w ++ onward word cs := by
  induction w with
  | nil => rfl
  | cons x w ih =>
      rw [glue_cons, onward_glued, rightRun_cons, inWord x List.mem_cons_self, if_pos rfl,
        ih (fun y member => inWord y (List.mem_cons_of_mem x member)), List.cons_append]

/-- The run of word symbols that ends with `x`, given the one before the gap `g`. -/
def leftStep (run g : List α) (x : α) : List α :=
  if word x then (if g.isEmpty then run ++ [x] else [x]) else []

theorem leftStep_end (run g : List α) (x : α) : ∀ c ∈ (leftStep word run g x).getLast?, c = x := by
  intro c atEnd
  simp only [leftStep] at atEnd
  split at atEnd
  · split at atEnd <;> simpa using atEnd.symm
  · simp at atEnd

/-- What a pass makes of a gap between the runs `left` and `right`. -/
abbrev Pass (α : Type) := (left gap right : List α) → List α

def mapCells (h : Pass α) : List α → List (Cell α) → List (Cell α)
  | _, [] => []
  | run, (g, x) :: cs =>
      (h run g (rightRun word ((g, x) :: cs)), x) :: mapCells h (leftStep word run g x) cs

/-- The run to the left of the last gap. -/
def lastRun : List α → List (Cell α) → List α
  | run, [] => run
  | run, (g, x) :: cs => lastRun (leftStep word run g x) cs

/-- A pass over a whole text in its cells; no word follows the last gap. -/
def rewrite (h : Pass α) (run : List α) (cs : List (Cell α)) (last : List α) : List α :=
  render (mapCells word h run cs) (h (lastRun word run cs) last [])

theorem rewrite_cons (h : Pass α) (run g : List α) (x : α) (cs : List (Cell α)) (last : List α) :
    rewrite word h run ((g, x) :: cs) last =
      h run g (rightRun word ((g, x) :: cs)) ++ x :: rewrite word h (leftStep word run g x) cs last :=
  rfl

/-- No pass moves, adds or drops a solid. -/
theorem mapCells_solids (h : Pass α) (run : List α) (cs : List (Cell α)) :
    (mapCells word h run cs).map Prod.snd = cs.map Prod.snd := by
  induction cs generalizing run with
  | nil => rfl
  | cons c cs ih => simp [mapCells, ih]

theorem mem_mapCells {h : Pass α} {run : List α} {cs : List (Cell α)} {c : Cell α}
    (member : c ∈ mapCells word h run cs) : ∃ d ∈ cs, d.2 = c.2 ∧ ∃ l r, c.1 = h l d.1 r := by
  induction cs generalizing run with
  | nil => simp [mapCells] at member
  | cons d cs ih =>
      obtain ⟨g, x⟩ := d
      rcases List.mem_cons.mp member with rfl | later
      · exact ⟨(g, x), List.mem_cons_self, rfl, _, _, rfl⟩
      · obtain ⟨d, inCells, same, gap⟩ := ih later
        exact ⟨d, List.mem_cons_of_mem _ inCells, same, gap⟩

/-- A pass that answers separators with separators keeps cells proper. -/
theorem mapCells_proper {h : Pass α} (separators : ∀ l g r, IsGap sep g → IsGap sep (h l g r))
    {cs : List (Cell α)} (proper : Proper sep cs) (run : List α) :
    Proper sep (mapCells word h run cs) := by
  induction cs generalizing run with
  | nil => simp [mapCells, Proper]
  | cons c cs ih =>
      intro d member
      rcases List.mem_cons.mp member with rfl | member
      · exact ⟨separators _ _ _ (proper.head sep).1, (proper.head sep).2⟩
      · exact ih (proper.tail sep) _ d member

/-- A pass keeps runs when a gap between two word symbols is empty after it
    exactly when it was empty before. -/
def KeepsRuns (h : Pass α) : Prop :=
  ∀ l g r, l ≠ [] → r ≠ [] → ((h l g r).isEmpty = g.isEmpty)

theorem leftStep_ne_nil {x : α} (inWord : word x = true) (run g : List α) :
    leftStep word run g x ≠ [] := by
  simp only [leftStep, inWord, if_true]
  split <;> simp

theorem rightRun_mapCells {h : Pass α} (keeps : KeepsRuns h) (run : List α) (cs : List (Cell α)) :
    rightRun word (mapCells word h run cs) = rightRun word cs := by
  induction cs generalizing run with
  | nil => rfl
  | cons c cs ih =>
      obtain ⟨g, x⟩ := c
      simp only [mapCells, rightRun_cons]
      cases inWord : word x with
      | false => rfl
      | true =>
          simp only [if_true, List.cons.injEq, true_and]
          cases cs with
          | nil => rfl
          | cons d cs =>
              obtain ⟨g', y⟩ := d
              have tail := ih (leftStep word run g x)
              simp only [onward, tail]
              cases inWord' : word y with
              | false => simp [rightRun, inWord']
              | true =>
                  have same := keeps (leftStep word run g x) g' (rightRun word ((g', y) :: cs))
                    (leftStep_ne_nil word inWord run g) (by simp [rightRun, inWord'])
                  simp only [mapCells, List.head?_cons, Option.any_some, same]
                  rfl

theorem leftStep_keeps {h : Pass α} (keeps : KeepsRuns h) {run g : List α} {x : α} {r : List α}
    (heads : word x = true → r ≠ []) :
    leftStep word run (h run g r) x = leftStep word run g x := by
  simp only [leftStep]
  cases inWord : word x with
  | false => rfl
  | true =>
      cases run with
      | nil => simp only [if_true]; split <;> split <;> rfl
      | cons a run => rw [keeps (a :: run) g r (by simp) (heads inWord)]

/-- Passes compose gap by gap when the first one keeps the runs. -/
theorem mapCells_mapCells {h k : Pass α} (keeps : KeepsRuns h) (run : List α) (cs : List (Cell α)) :
    mapCells word k run (mapCells word h run cs) =
      mapCells word (fun l g r => k l (h l g r) r) run cs := by
  induction cs generalizing run with
  | nil => rfl
  | cons c cs ih =>
      obtain ⟨g, x⟩ := c
      have right := rightRun_mapCells word keeps run ((g, x) :: cs)
      simp only [mapCells] at right ⊢
      rw [right, leftStep_keeps word keeps (by intro inWord; simp [rightRun, inWord]), ih]

theorem lastRun_mapCells {h : Pass α} (keeps : KeepsRuns h) (run : List α) (cs : List (Cell α)) :
    lastRun word run (mapCells word h run cs) = lastRun word run cs := by
  induction cs generalizing run with
  | nil => rfl
  | cons c cs ih =>
      obtain ⟨g, x⟩ := c
      simp only [mapCells, lastRun]
      rw [leftStep_keeps word keeps (by intro inWord; simp [rightRun, inWord]), ih]

theorem rewrite_mapCells {h k : Pass α} (keeps : KeepsRuns h) (run : List α) (cs : List (Cell α))
    (last : List α) :
    rewrite word k run (mapCells word h run cs) (h (lastRun word run cs) last []) =
      rewrite word (fun l g r => k l (h l g r) r) run cs last := by
  rw [rewrite, mapCells_mapCells word keeps, lastRun_mapCells word keeps, rewrite]

/-- Over a word written without gaps, a pass that leaves these gaps alone does nothing. -/
theorem rewrite_glue {h : Pass α} {w : List α} (inWord : ∀ x ∈ w, word x = true) {run : List α}
    {cs : List (Cell α)} (keep : ∀ w₁ w₂, w = w₁ ++ w₂ → w₂ ≠ [] →
      h (run ++ w₁) [] (w₂ ++ onward word cs) = []) (last : List α) :
    rewrite word h run (glue w cs) last = w ++ rewrite word h (run ++ w) cs last := by
  induction w generalizing run with
  | nil => simp
  | cons x w ih =>
      have first := keep [] (x :: w) rfl (by simp)
      have tail : ∀ y ∈ w, word y = true := fun y member => inWord y (List.mem_cons_of_mem x member)
      have here := inWord x List.mem_cons_self
      have right : rightRun word (([], x) :: glue w cs) = x :: w ++ onward word cs := by
        rw [rightRun_cons, here, if_pos rfl, onward_glue word tail]
        rfl
      have step : leftStep word run [] x = run ++ [x] := by simp [leftStep, here]
      have keep' : ∀ w₁ w₂, w = w₁ ++ w₂ → w₂ ≠ [] →
          h ((run ++ [x]) ++ w₁) [] (w₂ ++ onward word cs) = [] := by
        intro w₁ w₂ split apart
        rw [List.append_assoc]
        exact keep (x :: w₁) w₂ (congrArg (x :: ·) split) apart
      have rest := ih tail keep'
      rw [List.append_nil] at first
      rw [glue_cons, rewrite_cons, right, first, step, rest]
      simp

section Reading

variable (apart : ∀ c, sep c = true → word c = false)

/-- The run that ends right before a position, given what precedes it (nearest first). -/
def touching (before : List α) : List α := (before.takeWhile word).reverse

@[simp] theorem touching_nil : touching word ([] : List α) = [] := rfl

theorem touching_cons_word {x : α} (inWord : word x = true) (before : List α) :
    touching word (x :: before) = touching word before ++ [x] := by simp [touching, inWord]

theorem touching_cons_other {x : α} (outside : word x = false) (before : List α) :
    touching word (x :: before) = [] := by simp [touching, outside]

theorem touching_word {w : List α} (inWord : ∀ x ∈ w, word x = true) (before : List α) :
    touching word (w.reverse ++ before) = touching word before ++ w := by
  rw [touching, List.takeWhile_append_of_pos (by simpa using inWord)]
  simp [touching]

include apart

theorem touching_gap {g : List α} (gap : IsGap sep g) (nonempty : g ≠ []) (before : List α) :
    touching word (g.reverse ++ before) = [] := by
  have last := apart _ (gap _ (List.getLast_mem nonempty))
  rw [← List.dropLast_concat_getLast nonempty, List.reverse_append, List.reverse_singleton,
    List.singleton_append, List.cons_append, touching_cons_other word last]

theorem takeWhile_render {cs : List (Cell α)} {last : List α} (proper : Proper sep cs)
    (gap : IsGap sep last) : (render cs last).takeWhile word = onward word cs := by
  have stops : ∀ {g : List α}, IsGap sep g → g ≠ [] → ∀ t, (g ++ t).takeWhile word = [] := by
    intro g gap nonempty t
    cases g with
    | nil => exact absurd rfl nonempty
    | cons c g => simp [apart c (gap c List.mem_cons_self)]
  induction cs with
  | nil =>
      cases last with
      | nil => rfl
      | cons c last => simpa [render] using stops gap (by simp) []
  | cons c cs ih =>
      obtain ⟨g, x⟩ := c
      cases g with
      | cons s g =>
          rw [onward_of_gap word (by simp)]
          exact stops (proper.head sep).1 (by simp) _
      | nil =>
          rw [onward_glued, rightRun_cons]
          cases inWord : word x with
          | false => simp [render, inWord]
          | true => simp [render, inWord, ih (proper.tail sep)]

/-- The run a pass tracks is the one that can be read off the text. -/
theorem touching_leftStep {g : List α} (gap : IsGap sep g) (x : α) (before : List α) :
    touching word (x :: (g.reverse ++ before)) = leftStep word (touching word before) g x := by
  cases inWord : word x with
  | false => simp [touching, leftStep, inWord]
  | true =>
      rw [touching_cons_word word inWord]
      cases g with
      | nil => simp [leftStep, inWord]
      | cons c g =>
          rw [touching_gap sep word apart gap (by simp)]
          simp [leftStep, inWord]

end Reading

end Nipoto.Text.Gaps
