import Nipoto.Retrieval.HalfSpace.Basic
import Nipoto.Text.Lines

/-! # The white space steps

They fold every gap on its own: a gap without a line break becomes one space, a
gap with line breaks keeps these, each run of them cut to two, and the text
begins and ends with a solid character.
-/

namespace Nipoto.Normalize

open Text Text.Regex Text.Gaps

/-- `[^\S\n]`. -/
def isInline (c : Char) : Bool := isSpace c && c != '\n'

def foldSpaces (t : Str) : Str := sub spaces (fun _ => [' ']) (replaceChar '\t' [' '] t)

def cutBreaks (t : Str) : Str := sub blankLines (fun _ => ['\n', '\n']) t

/-- The line breaks of a gap after every run of them was cut to two. -/
def keptBreaks (g : Str) : Str := breaks (cutBreaks g)

def blankGap (g : Str) : Str := if '\n' ∈ g then keptBreaks g else if g = [] then [] else [' ']

/-- A half-space is no white space and stays. -/
def tidyGap (g : Str) : Str := if g = [zwnj] then [zwnj] else blankGap g

theorem whitespaceSteps_eq (t : Str) :
    whitespaceSteps t = strip (trimLines (cutBreaks (foldSpaces t))) := rfl

theorem isSpace_of_isSep {x : Char} (solid : isSep x = false) : isSpace x = false := by
  rw [isSep, Bool.or_eq_false_iff] at solid
  exact solid.1

theorem foldSpaces_append {x : Char} (outside : isInline x = false) (g t : Str) :
    foldSpaces (g ++ x :: t) = foldSpaces g ++ x :: foldSpaces t := by
  have noTab : x ≠ '\t' := by rintro rfl; exact absurd outside (by decide)
  have split := @squeeze_append_outside 1 isInline [' '] (by decide) x outside
    (replaceChar '\t' [' '] g) (replaceChar '\t' [' '] t)
  simp only [foldSpaces, replaceChar, List.flatMap_append, List.flatMap_cons, if_neg noTab]
  exact split

theorem foldSpaces_cons {x : Char} (outside : isInline x = false) (t : Str) :
    foldSpaces (x :: t) = x :: foldSpaces t := foldSpaces_append outside [] t

theorem replaceTab_inline {w : Str} (inside : ∀ c ∈ w, isInline c = true) :
    (replaceChar '\t' [' '] w).length = w.length ∧
      ∀ c ∈ replaceChar '\t' [' '] w, isInline c = true := by
  induction w with
  | nil => exact ⟨rfl, by simp [replaceChar]⟩
  | cons c w ih =>
      obtain ⟨size, rest⟩ := ih fun d member => inside d (List.mem_cons_of_mem c member)
      simp only [replaceChar, List.flatMap_cons] at size rest ⊢
      split
      · refine ⟨by simp [size], ?_⟩
        intro d member
        rcases List.mem_cons.mp member with rfl | later
        · decide
        · exact rest d later
      · refine ⟨by simp [size], ?_⟩
        intro d member
        rcases List.mem_cons.mp member with rfl | later
        · exact inside _ List.mem_cons_self
        · exact rest d later

theorem foldSpaces_run {w : Str} (nonempty : w ≠ []) (inside : ∀ c ∈ w, isInline c = true) {t : Str}
    (ended : ∀ c ∈ t.head?, isInline c = false) : foldSpaces (w ++ t) = ' ' :: foldSpaces t := by
  obtain ⟨size, inline⟩ := replaceTab_inline inside
  have next : ∀ c ∈ (replaceChar '\t' [' '] t).head?, isInline c = false := by
    intro c atHead
    cases t with
    | nil => simp [replaceChar] at atHead
    | cons d t =>
        have outside := ended d rfl
        have noTab : d ≠ '\t' := by rintro rfl; exact absurd outside (by decide)
        simp only [replaceChar, List.flatMap_cons, if_neg noTab] at atHead
        obtain rfl : d = c := by simpa using atHead
        exact outside
  have run := @squeeze_run 1 isInline [' '] (by decide) _ inline _ next
  have long : 1 ≤ (replaceChar '\t' [' '] w).length := size ▸ List.length_pos_iff.mpr nonempty
  rw [if_pos long] at run
  simp only [foldSpaces, replaceChar, List.flatMap_append] at run ⊢
  exact run

theorem foldSpaces_inline {w : Str} (nonempty : w ≠ []) (inside : ∀ c ∈ w, isInline c = true) :
    foldSpaces w = [' '] := by
  have run := @foldSpaces_run w nonempty inside [] (by simp)
  rw [List.append_nil] at run
  exact run

theorem cutBreaks_append {x : Char} (outside : x ≠ '\n') (g t : Str) :
    cutBreaks (g ++ x :: t) = cutBreaks g ++ x :: cutBreaks t :=
  @squeeze_append_outside 3 (· == '\n') ['\n', '\n'] (by decide) x
    (beq_eq_false_iff_ne.mpr outside) g t

theorem cutBreaks_run {n : Nat} {t : Str} (ended : ∀ c ∈ t.head?, c ≠ '\n') :
    cutBreaks (List.replicate n '\n' ++ t) =
      (if 3 ≤ n then ['\n', '\n'] else List.replicate n '\n') ++ cutBreaks t := by
  have run := @squeeze_run 3 (· == '\n') ['\n', '\n'] (by decide) (List.replicate n '\n')
    (by simp) t (fun c atHead => beq_eq_false_iff_ne.mpr (ended c atHead))
  simp only [List.length_replicate] at run
  exact run

theorem keptBreaks_append {x : Char} (outside : x ≠ '\n') (g t : Str) :
    keptBreaks (g ++ x :: t) = keptBreaks g ++ keptBreaks t := by
  rw [keptBreaks, cutBreaks_append outside, breaks, List.filter_append]
  exact congrArg _ (breaks_cons outside _)

theorem keptBreaks_inline {w : Str} (inside : ∀ c ∈ w, c ≠ '\n') (t : Str) :
    keptBreaks (w ++ t) = keptBreaks t := by
  induction w with
  | nil => rfl
  | cons c w ih =>
      have first := keptBreaks_append (inside c List.mem_cons_self) [] (w ++ t)
      rw [List.cons_append, show c :: (w ++ t) = [] ++ c :: (w ++ t) from rfl, first,
        ih (fun d member => inside d (List.mem_cons_of_mem c member))]
      rfl

/-- The first run of line breaks. -/
theorem first_breaks {g : Str} (member : '\n' ∈ g) :
    ∃ w n t, g = w ++ (List.replicate (n + 1) '\n' ++ t) ∧ (∀ c ∈ w, c ≠ '\n') ∧
      ∀ c ∈ t.head?, c ≠ '\n' := by
  have front := List.takeWhile_append_dropWhile (p := (· != '\n')) (l := g)
  have back := List.takeWhile_append_dropWhile (p := (· == '\n')) (l := g.dropWhile (· != '\n'))
  have noBreak : ∀ c ∈ g.takeWhile (· != '\n'), c ≠ '\n' :=
    fun c inFront => by simpa using List.mem_takeWhile_imp inFront
  have onlyBreaks : ∀ c ∈ (g.dropWhile (· != '\n')).takeWhile (· == '\n'), c = '\n' :=
    fun c inRun => by simpa using List.mem_takeWhile_imp inRun
  have run := List.eq_replicate_of_mem onlyBreaks
  cases count : ((g.dropWhile (· != '\n')).takeWhile (· == '\n')).length with
  | zero =>
      have none : g.dropWhile (· != '\n') = [] := by
        cases rest : g.dropWhile (· != '\n') with
        | nil => rfl
        | cons c t =>
            have atBreak := @dropWhile_head (· != '\n') g c (by simp [rest])
            rw [rest] at count
            simp [show c = '\n' by simpa using atBreak] at count
      rw [none, List.append_nil] at front
      rw [← front] at member
      exact absurd rfl (noBreak '\n' member)
  | succ n =>
      refine ⟨_, n, (g.dropWhile (· != '\n')).dropWhile (· == '\n'), ?_, noBreak, ?_⟩
      · rw [← count, ← run, back, front]
      · intro c atHead
        simpa using @dropWhile_head (· == '\n') (g.dropWhile (· != '\n')) c atHead

theorem keptBreaks_run {n : Nat} {t : Str} (ended : ∀ c ∈ t.head?, c ≠ '\n') :
    keptBreaks (List.replicate n '\n' ++ t) =
      (if 3 ≤ n then ['\n', '\n'] else List.replicate n '\n') ++ keptBreaks t := by
  rw [keptBreaks, cutBreaks_run ended, breaks, List.filter_append]
  split
  · rfl
  · simp [keptBreaks, breaks]

theorem keptBreaks_ne_nil {g : Str} (member : '\n' ∈ g) : keptBreaks g ≠ [] := by
  obtain ⟨w, n, t, rfl, noBreak, ended⟩ := first_breaks member
  rw [keptBreaks_inline noBreak, keptBreaks_run ended]
  split <;> simp

theorem keptBreaks_none {g : Str} (noBreak : ∀ c ∈ g, c ≠ '\n') : keptBreaks g = [] := by
  have inline := keptBreaks_inline noBreak []
  rwa [List.append_nil] at inline

theorem isInline_of_ne {c : Char} (space : isSpace c = true) (inLine : c ≠ '\n') : isInline c = true := by
  simp [isInline, space, inLine]

theorem foldSpaces_head {t : Str} (blank : Blank t) (first : ∀ c ∈ t.head?, c ≠ '\n') :
    ∀ c ∈ (foldSpaces t).head?, c ≠ '\n' := by
  cases t with
  | nil => simp [foldSpaces, replaceChar, sub]
  | cons c t =>
      have inline := isInline_of_ne (blank c List.mem_cons_self) (first c rfl)
      have split := List.takeWhile_append_dropWhile (p := isInline) (l := c :: t)
      have run := @foldSpaces_run ((c :: t).takeWhile isInline) (by simp [inline])
        (fun d member => List.mem_takeWhile_imp member) ((c :: t).dropWhile isInline) (dropWhile_head _)
      rw [split] at run
      rw [run]
      intro d atHead
      obtain rfl : ' ' = d := by simpa using atHead
      decide

/-- Folding spaces first makes no difference to the line breaks. -/
theorem keptBreaks_foldSpaces {g : Str} (blank : Blank g) : keptBreaks (foldSpaces g) = keptBreaks g := by
  induction size : g.length using Nat.strong_induction_on generalizing g with
  | h n ih =>
      have spaceless : ∀ t, keptBreaks (' ' :: t) = keptBreaks t :=
        fun t => @keptBreaks_inline [' '] (by simp) t
      by_cases member : '\n' ∈ g
      · obtain ⟨w, m, t, rfl, noBreak, ended⟩ := first_breaks member
        have rest : Blank t := fun c inRest => blank c (by simp [inRest])
        simp only [List.length_append, List.length_replicate] at size
        have tail := @ih t.length (by omega) t rest rfl
        have breaksStay : ∀ k, foldSpaces (List.replicate k '\n' ++ t) =
            List.replicate k '\n' ++ foldSpaces t := by
          intro k
          induction k with
          | zero => rfl
          | succ k ih =>
              rw [List.replicate_succ, List.cons_append, foldSpaces_cons (by decide), ih]
              rfl
        have folded : keptBreaks (foldSpaces (w ++ (List.replicate (m + 1) '\n' ++ t))) =
            keptBreaks (List.replicate (m + 1) '\n' ++ foldSpaces t) := by
          cases w with
          | nil => rw [List.nil_append, breaksStay]
          | cons c w =>
              rw [foldSpaces_run (by simp)
                (fun d inWord => isInline_of_ne (blank d (List.mem_append_left _ inWord)) (noBreak d inWord))
                (by simp [isInline, List.replicate_succ]), breaksStay, spaceless]
        rw [folded, keptBreaks_inline noBreak, keptBreaks_run ended,
          keptBreaks_run (foldSpaces_head rest ended), tail]
      · have noBreak : ∀ c ∈ g, c ≠ '\n' := by
          rintro c inGap rfl
          exact member inGap
        rw [keptBreaks_none noBreak]
        cases g with
        | nil => rfl
        | cons c g =>
            rw [foldSpaces_inline (by simp) (fun d inGap => isInline_of_ne (blank d inGap) (noBreak d inGap))]
            rfl

theorem foldSpaces_zwnj : foldSpaces [zwnj] = [zwnj] := by decide

theorem cutBreaks_zwnj : cutBreaks [zwnj] = [zwnj] := by decide

theorem trimGap_fold {g : Str} (blank : Blank g) : trimGap (cutBreaks (foldSpaces g)) = blankGap g := by
  have kept : breaks (cutBreaks (foldSpaces g)) = keptBreaks g := keptBreaks_foldSpaces blank
  have hasBreak : '\n' ∈ cutBreaks (foldSpaces g) ↔ breaks (cutBreaks (foldSpaces g)) ≠ [] := by
    simp [breaks]
  by_cases member : '\n' ∈ g
  · rw [trimGap, if_pos (hasBreak.mpr (kept ▸ keptBreaks_ne_nil member)), kept, blankGap, if_pos member]
  · have noBreak : ∀ c ∈ g, c ≠ '\n' := by
      rintro c inGap rfl
      exact member inGap
    rw [trimGap, if_neg (hasBreak.not.mpr (by rw [kept, keptBreaks_none noBreak]; simp)), blankGap,
      if_neg member]
    cases g with
    | nil => rfl
    | cons c g =>
        rw [foldSpaces_inline (by simp) (fun d inGap => isInline_of_ne (blank d inGap) (noBreak d inGap)),
          if_neg (by simp)]
        rfl

/-- A gap as the half-space steps leave it. -/
def Settled (g : Str) : Prop := Blank g ∨ g = [zwnj]

theorem keptBreaks_blank (g : Str) : Blank (keptBreaks g) := breaks_blank _

theorem isSep_of_isSpace {x : Char} (space : isSpace x = true) : isSep x = true := by simp [isSep, space]

theorem tidyGap_gap (g : Str) : IsGap isSep (tidyGap g) := by
  intro c member
  simp only [tidyGap, blankGap] at member
  split at member
  · obtain rfl := List.mem_singleton.mp member
    decide
  · split at member
    · exact isSep_of_isSpace (keptBreaks_blank g c member)
    · split at member
      · simp at member
      · obtain rfl := List.mem_singleton.mp member
        decide

theorem fold_blank {g : Str} (blank : Blank g) : Blank (cutBreaks (foldSpaces g)) := by
  intro c member
  rcases mem_squeeze (by decide : 0 < 3) member with put | folded
  · exact (by decide : ∀ d ∈ ['\n', '\n'], isSpace d = true) c put
  · rcases mem_squeeze (by decide : 0 < 1) folded with put | old
    · obtain rfl := List.mem_singleton.mp put
      decide
    · obtain ⟨d, inGap, replaced⟩ := List.mem_flatMap.mp old
      split at replaced
      · obtain rfl := List.mem_singleton.mp replaced
        decide
      · obtain rfl := List.mem_singleton.mp replaced
        exact blank c inGap

theorem fold_append {x : Char} (solid : isSpace x = false) (g t : Str) :
    cutBreaks (foldSpaces (g ++ x :: t)) =
      cutBreaks (foldSpaces g) ++ x :: cutBreaks (foldSpaces t) := by
  have noBreak : x ≠ '\n' := by rintro rfl; exact absurd solid (by decide)
  rw [foldSpaces_append (by simp [isInline, solid]), cutBreaks_append noBreak]

theorem trimRest_render {cs : List (Cell Char)} {last : Str} (proper : Proper isSep cs)
    (settled : ∀ c ∈ cs, Settled c.1) (lastBlank : Blank last) :
    trimRest (cutBreaks (foldSpaces (render cs last))) =
      render (cs.map fun c => (tidyGap c.1, c.2)) (keptBreaks last) := by
  induction cs with
  | nil =>
      rw [render, trimRest_blank (fold_blank lastBlank)]
      exact keptBreaks_foldSpaces lastBlank
  | cons c cs ih =>
      obtain ⟨g, x⟩ := c
      have solid := isSpace_of_isSep (proper.head isSep).2
      have tail := ih (proper.tail isSep) (fun c member => settled c (List.mem_cons_of_mem _ member))
      rw [render, fold_append solid]
      rcases settled (g, x) List.mem_cons_self with blank | rfl
      · have kept : tidyGap g = blankGap g := by
          rw [tidyGap, if_neg]
          rintro rfl
          exact absurd (blank zwnj (by simp)) (by decide)
        rw [trimRest_gap (fold_blank blank) solid, trimGap_fold blank, tail, ← kept]
        rfl
      · rw [foldSpaces_zwnj, cutBreaks_zwnj, List.singleton_append,
          trimRest_solid (by decide), trimRest_solid solid, tail]
        rfl

theorem render_last_solid {cs : List (Cell Char)} (proper : Proper isSep cs) {x : Char}
    (solid : isSpace x = false) : ∀ c ∈ (x :: render cs []).getLast?, isSpace c = false := by
  induction cs generalizing x with
  | nil =>
      intro c atEnd
      obtain rfl : x = c := by simpa [render] using atEnd
      exact solid
  | cons d cs ih =>
      obtain ⟨g, y⟩ := d
      have tail := ih (proper.tail isSep) (isSpace_of_isSep (proper.head isSep).2)
      intro c atEnd
      apply tail c
      rw [render, ← List.cons_append, List.getLast?_append_of_ne_nil _ (by simp)] at atEnd
      exact atEnd

/-- What the white space steps make of a text whose gaps are settled. -/
theorem whitespaceSteps_render {g last : Str} {x : Char} {cs : List (Cell Char)}
    (proper : Proper isSep ((g, x) :: cs)) (firstBlank : Blank g)
    (settled : ∀ c ∈ cs, Settled c.1) (lastBlank : Blank last) :
    whitespaceSteps (render ((g, x) :: cs) last) =
      x :: render (cs.map fun c => (tidyGap c.1, c.2)) [] := by
  have solid := isSpace_of_isSep (proper.head isSep).2
  have tidied : Proper isSep (cs.map fun c => (tidyGap c.1, c.2)) := by
    intro d member
    obtain ⟨c, inCells, rfl⟩ := List.mem_map.mp member
    exact ⟨tidyGap_gap c.1, (proper c (List.mem_cons_of_mem _ inCells)).2⟩
  rw [whitespaceSteps_eq, render, fold_append solid, trimLines_gap (fold_blank firstBlank) solid,
    trimRest_render (proper.tail isSep) settled lastBlank, strip_blank_append (breaks_blank _),
    strip_solid solid, render_last _ (keptBreaks last), rstrip_append_blank _ (keptBreaks_blank last)]
  have trimmed := rstrip_of_solid_end (render_last_solid tidied solid)
  rw [rstrip_cons] at trimmed
  simpa [solid] using trimmed

theorem whitespaceSteps_blank {t : Str} (blank : Blank t) : whitespaceSteps t = [] := by
  rw [whitespaceSteps_eq, trimLines_blank (fold_blank blank), strip_eq_nil]
  exact breaks_blank _

end Nipoto.Normalize
