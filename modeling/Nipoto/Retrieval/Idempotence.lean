import Nipoto.Retrieval.SecondPass
import Nipoto.Retrieval.Stability
import Nipoto.Text.Interior

/-! # When normalising twice is normalising once

The result of a first run is left alone by a second one exactly when its
characters are stable (deleting an invisible character or a diacritic may let
NFKC compose anew) and each of its inner gaps is settled.
-/

namespace Nipoto.Normalize

open Text Text.Regex Text.Gaps

/-- A text without its stray half-spaces and with single spaces. -/
def singleSpaced (t : Str) : Str :=
  foldSpaces (sub zwnjAtEdge (fun _ => []) (sub zwnjRun (fun _ => [zwnj]) t))

/-- What a first run must find for a second one to change nothing, said of the
    text `f` after the character-level steps. -/
structure Settles (nfkc : Nfkc) (f : Str) : Prop where
  characters : characterSteps nfkc.run (singleSpaced f) = singleSpaced f
  gaps : ∀ a g b, Interior isSep a g b f →
    SettledGap (touching isBlock a.reverse) g (b.takeWhile isBlock)

def spacedOutGap : Pass Char := fun l g r => foldSpaces (strayGap l g r)

theorem foldSpaces_plain {g : Str} (gap : IsGap isSep g) : ∀ c ∈ foldSpaces g, c ∈ plainSeparators := by
  intro c member
  have listed : ∀ d, d = ' ' ∨ d = '\n' ∨ d = zwnj → d ∈ plainSeparators := by
    rintro d (rfl | rfl | rfl) <;> decide
  apply listed
  rcases mem_squeeze_one member with put | outside
  · exact .inl (List.mem_singleton.mp put)
  · rcases mem_squeeze Nat.one_pos member with put | old
    · exact .inl (List.mem_singleton.mp put)
    · obtain ⟨d, inGap, replaced⟩ := List.mem_flatMap.mp old
      split at replaced
      · exact .inl (List.mem_singleton.mp replaced)
      · obtain rfl := List.mem_singleton.mp replaced
        have separator := gap c inGap
        rw [isSep, Bool.or_eq_true] at separator
        rcases separator with space | half
        · by_contra neither
          change isInline c = false at outside
          rw [isInline_of_ne space (fun same => neither (.inr (.inl same)))] at outside
          exact absurd outside (by simp)
        · exact .inr (.inr (beq_iff_eq.mp half))

theorem strayGap_gap (l r : Str) {g : Str} (gap : IsGap isSep g) : IsGap isSep (strayGap l g r) := by
  unfold strayGap
  split
  · exact zwnj_gap
  · exact dropZwnj_gap gap

theorem spacedOutGap_plain (l g r : Str) (gap : IsGap isSep g) :
    ∀ c ∈ spacedOutGap l g r, c ∈ plainSeparators := foldSpaces_plain (strayGap_gap l r gap)

theorem finalGap_plain (l g r : Str) : ∀ c ∈ finalGap l g r, c ∈ plainSeparators := by
  intro c member
  by_cases half : IsHalfSpace l g r
  · rw [finalGap_of_half half] at member
    obtain rfl := List.mem_singleton.mp member
    decide
  · rw [finalGap_of_blank half] at member
    rcases blankGap_shape (dropZwnj g) with empty | space | ⟨n, breaks⟩
    · simp [empty] at member
    · rw [space] at member
      obtain rfl := List.mem_singleton.mp member
      decide
    · rw [breaks] at member
      rw [List.eq_of_mem_replicate member]
      decide

theorem foldSpaces_eq_nil {g : Str} : foldSpaces g = [] ↔ g = [] := by
  constructor
  · intro gone
    cases g with
    | nil => rfl
    | cons c g =>
        cases inline : isInline c with
        | false => simp [foldSpaces_cons inline] at gone
        | true =>
            have split := List.takeWhile_append_dropWhile (p := isInline) (l := c :: g)
            have run := @foldSpaces_run ((c :: g).takeWhile isInline) (by simp [inline])
              (fun d member => List.mem_takeWhile_imp member) ((c :: g).dropWhile isInline) (dropWhile_head _)
            rw [split, gone] at run
            exact absurd run (by simp)
  · rintro rfl
    rfl

/-- Both passes leave the same solids apart, except after a prefix. -/
theorem same_separation (l g r : Str) :
    (spacedOutGap l g r = [] ↔ finalGap l g r = []) ∨ l ∈ prefixes := by
  by_cases listed : l ∈ prefixes
  · exact .inr listed
  left
  rw [spacedOutGap, foldSpaces_eq_nil, strayGap]
  by_cases half : IsHalfSpace l g r
  · rw [finalGap_of_half half]
    refine iff_of_false ?_ (by simp)
    obtain ⟨left, right, attached | pure | ⟨joint, rule⟩⟩ := half
    · exact absurd attached.2.1 listed
    · rw [if_pos ⟨left, right, pure⟩]
      simp
    · split
      · simp
      · rename_i impure
        rw [dropZwnj_eq_nil]
        exact fun pure => impure ⟨left, right, joint.1, pure⟩
  · have impure : ¬ (l ≠ [] ∧ r ≠ [] ∧ AllZwnj g) :=
      fun pure => half ⟨pure.1, pure.2.1, .inr (.inl pure.2.2)⟩
    rw [if_neg impure, finalGap, halfSpaceGap, if_neg half, tidyGap_eq_nil]

section Cells

variable {g last : Str} {x : Char} {cs : List (Cell Char)}

theorem foldSpaces_render (proper : Proper isSep cs) :
    foldSpaces (render cs last) = render (cs.map fun c => (foldSpaces c.1, c.2)) (foldSpaces last) := by
  induction cs with
  | nil => rfl
  | cons c cs ih =>
      obtain ⟨g, x⟩ := c
      have outside : isInline x = false := by
        simp [isInline, isSpace_of_isSep (proper.head isSep).2]
      rw [render, foldSpaces_append outside, ih (proper.tail isSep)]
      rfl

theorem mapCells_foldSpaces (run : Str) (cs : List (Cell Char)) :
    (mapCells isBlock strayGap run cs).map (fun c => (foldSpaces c.1, c.2)) =
      mapCells isBlock spacedOutGap run cs := by
  induction cs generalizing run with
  | nil => rfl
  | cons c cs ih => simp only [mapCells, List.map_cons, ih, spacedOutGap]

theorem singleSpaced_render (proper : Proper isSep cs) (gapEnd : IsGap isSep last) :
    singleSpaced (render cs last) = rewrite isBlock spacedOutGap [] cs last := by
  rw [singleSpaced, sub_stray proper gapEnd, rewrite, foldSpaces_render
    (mapCells_proper isSep isBlock (fun l _ r gap => strayGap_gap l r gap) proper []), mapCells_foldSpaces]
  rfl

variable (nfkc : Nfkc) (proper : Proper isSep ((g, x) :: cs)) (gapEnd : IsGap isSep last)
  (noMark : ∀ c ∈ (g, x) :: cs, isDiacritic c.2 = false)

include proper noMark

theorem solids_noMark {h : Pass Char}
    (plain : ∀ l g r, IsGap isSep g → ∀ c ∈ h l g r, c ∈ plainSeparators) :
    ∀ c ∈ x :: render (mapCells isBlock h (startRun x) cs) [], isDiacritic c = false := by
  intro c member
  rcases List.mem_cons.mp member with rfl | later
  · exact noMark _ List.mem_cons_self
  · exact render_noMark plain (proper.tail isSep) (fun c member => noMark c (List.mem_cons_of_mem _ member))
      _ c later

include gapEnd

/-- The result of a first run is as stable as the text in single spacing. -/
theorem fixed_iff :
    Fixed nfkc (singleSpaced (render ((g, x) :: cs) last)) ↔
      Fixed nfkc (x :: render (mapCells isBlock finalGap (startRun x) cs) []) := by
  have same := @fixed_cells nfkc _ _ spacedOutGap_plain (fun l g r _ => finalGap_plain l g r)
    same_separation cs (proper.tail isSep) (fun c member => noMark c (List.mem_cons_of_mem _ member))
    (startRun x) [x] (by
      intro c atEnd
      simp only [startRun, leftStep] at atEnd
      split at atEnd <;> simp_all)
  have inner := solids_noMark proper noMark spacedOutGap_plain
  have edges : ∀ {s e b : Str}, (∀ c ∈ s, c ∈ plainSeparators) → (∀ c ∈ e, c ∈ plainSeparators) →
      (∀ c ∈ b, isDiacritic c = false) → (Fixed nfkc (s ++ (b ++ e)) ↔ Fixed nfkc b) := by
    intro s e b plainStart plainEnd noMark
    have ending : Fixed nfkc (b ++ e) ↔ Fixed nfkc b := by
      cases e with
      | nil => rw [List.append_nil]
      | cons c e =>
          have split := fixed_split nfkc (a := b) (b := []) plainEnd (.inl (by simp)) (by simp)
          rw [List.append_nil] at split
          exact split.trans (and_iff_left (fixed_nil nfkc))
    have noMark' : ∀ c ∈ b ++ e, isDiacritic c = false := by
      intro c member
      rcases List.mem_append.mp member with inBody | inEnd
      · exact noMark c inBody
      · exact plain_no_mark c (List.mem_append_right _ (plainEnd c inEnd))
    cases s with
    | nil => exact ending
    | cons c s =>
        have split := fixed_split nfkc (a := []) plainStart (.inl (by simp)) noMark'
        rw [List.nil_append] at split
        exact (split.trans (and_iff_right (fixed_nil nfkc))).trans ending
  rw [singleSpaced_render proper gapEnd, rewrite, mapCells, render, startRun_gap, render_last,
    ← List.cons_append]
  rw [edges (spacedOutGap_plain _ _ _ (proper.head isSep).1) (spacedOutGap_plain _ _ _ gapEnd) inner]
  exact same

omit noMark gapEnd in
/-- Only the gaps decide whether the gap steps change a result of theirs. -/
theorem gapSteps_again_iff :
    gapSteps (x :: render (mapCells isBlock finalGap (startRun x) cs) []) =
        x :: render (mapCells isBlock finalGap (startRun x) cs) [] ↔
      EveryGap isBlock SettledGap (startRun x) cs := by
  have whole := final_proper proper
  have inner := whole.tail isSep
  have second := (mapCells_after finalGap_splits second_agrees cs
    (.inl rfl : LeftAfter (startRun x) _ (startRun x))).1
  have cells := mapCells_proper isSep isBlock (fun l g r _ => finalGap_gap l g r) inner (startRun x)
  have again := @gapSteps_render [] [] x _ whole (by simp [IsGap])
  rw [render, List.nil_append, second] at again
  rw [second] at cells
  rw [again, List.cons.injEq, and_iff_right rfl, render_eq_iff isSep cells inner, mapCells_eq_iff]
  exact EveryGap.congr (proper.tail isSep) (fun l g r _ => second_eq_iff) (startRun x)

omit gapEnd in
theorem final_plain : Plain (x :: render (mapCells isBlock finalGap (startRun x) cs) []) := by
  refine ⟨?_, solids_noMark proper noMark (fun l g r _ => finalGap_plain l g r)⟩
  intro a member separator
  rcases List.mem_cons.mp member with rfl | later
  · rw [(proper.head isSep).2] at separator
    exact absurd separator (by simp)
  · obtain ⟨c, inCells, inGap | rfl⟩ := (mem_render.mp later).resolve_right (by simp)
    · obtain ⟨d, _, _, l, r, gap⟩ := mem_mapCells isBlock inCells
      rw [gap] at inGap
      exact finalGap_plain l d.1 r a inGap
    · obtain ⟨d, old, same, _⟩ := mem_mapCells isBlock inCells
      have solid := (proper.tail isSep d old).2
      rw [same, separator] at solid
      exact absurd solid (by simp)

end Cells

theorem normalize_eq (nfkc : Nfkc) (t : Str) :
    normalize nfkc.run t = gapSteps (characterSteps nfkc.run t) :=
  normalize_eq_gapSteps nfkc.characterSteps_nil t

/-- A text without solids settles. -/
theorem settles_gap (nfkc : Nfkc) {f : Str} (gap : IsGap isSep f) : Settles nfkc f := by
  refine ⟨?_, ?_⟩
  · have spaced := @singleSpaced_render f [] (by simp [Proper]) gap
    rw [render] at spaced
    have plain := spacedOutGap_plain (lastRun isBlock [] []) f [] gap
    rw [rewrite, mapCells, render] at spaced
    rw [spaced]
    cases text : spacedOutGap (lastRun isBlock [] []) f [] with
    | nil => exact nfkc.characterSteps_nil
    | cons c g =>
        rw [text] at plain
        have split := @fixed_split nfkc [] (c :: g) [] plain (.inl (by simp)) (by simp)
        rw [List.append_nil, List.nil_append] at split
        exact split.mpr ⟨fixed_nil nfkc, fixed_nil nfkc⟩
  · rintro a g b ⟨rfl, _, ⟨x, atEnd, solid⟩, _⟩
    have separator := gap x (List.mem_append_left _ (List.mem_of_getLast? atEnd))
    rw [solid] at separator
    exact absurd separator (by simp)

/-- Exactly when a second run of `normalize` changes nothing. -/
theorem normalize_twice_iff (nfkc : Nfkc) (t : Str) :
    normalize nfkc.run (normalize nfkc.run t) = normalize nfkc.run t ↔
      Settles nfkc (characterSteps nfkc.run t) := by
  have noMark := characterSteps_no_mark nfkc.run t
  rw [normalize_eq, normalize_eq]
  generalize characterSteps nfkc.run t = f at noMark
  have cells := cut_proper isSep f
  have text := render_cut isSep f
  generalize (cut isSep f).2 = last at cells text
  generalize (cut isSep f).1 = all at cells text
  subst text
  cases all with
  | nil =>
      rw [render, gapSteps_blank cells.2, nfkc.characterSteps_nil, gapSteps_blank (by simp [IsGap])]
      exact iff_of_true rfl (settles_gap nfkc cells.2)
  | cons c cs =>
      obtain ⟨g, x⟩ := c
      have solidMarks : ∀ c ∈ (g, x) :: cs, isDiacritic c.2 = false :=
        fun c member => noMark c.2 (mem_render.mpr (.inl ⟨c, member, .inr rfl⟩))
      have plain := final_plain cells.1 solidMarks
      have interior := everyGap_iff_interior (P := SettledGap) isBlock_of_isSep cells.1 cells.2
      rw [startRun_gap] at interior
      rw [gapSteps_render cells.1 cells.2]
      constructor
      · intro same
        have kept := congrArg solids same
        rw [solids_gapSteps] at kept
        have fixed := stable_of_solids nfkc plain kept
        rw [fixed] at same
        exact ⟨(fixed_iff nfkc cells.1 cells.2 solidMarks).mpr fixed,
          interior.mp ((gapSteps_again_iff cells.1).mp same)⟩
      · rintro ⟨characters, gaps⟩
        have fixed : characterSteps nfkc.run _ = _ := (fixed_iff nfkc cells.1 cells.2 solidMarks).mp characters
        rw [fixed]
        exact (gapSteps_again_iff cells.1).mpr (interior.mpr gaps)

theorem characterSteps_bare (nfkc : Nfkc) {w : Str} (nonempty : w ≠ [])
    (bare : ∀ c ∈ w, c ∈ bareLetters ++ plainSeparators) : characterSteps nfkc.run w = w := by
  have inert : ∀ c ∈ bareLetters ++ plainSeparators,
      c ∈ persianLetters ++ plainSeparators ∧ foldChar c = [c] := by decide +kernel
  have fold : w.flatMap foldChar = w := by
    clear nonempty
    induction w with
    | nil => rfl
    | cons c w ih =>
        rw [List.flatMap_cons, (inert c (bare c List.mem_cons_self)).2,
          ih fun d member => bare d (List.mem_cons_of_mem c member)]
        rfl
  have steps := @Nfkc.characterSteps_word nfkc w nonempty (fun c member => (inert c (bare c member)).1)
    [] [] (by simp)
  rw [nfkc.characterSteps_nil, List.append_nil, List.append_nil, fold] at steps
  exact steps

/-- A tab between a prefix and its stem becomes a space only after the half-space rules. -/
theorem tab_keeps_prefix_apart :
    ¬ ∃ nfkc : Nfkc, ∀ t, normalize nfkc.run (normalize nfkc.run t) = normalize nfkc.run t := by
  rintro ⟨nfkc, idempotent⟩
  have twice := idempotent "می\tشود".toList
  have first : gapSteps "می\tشود".toList = "می شود".toList := by decide +kernel
  have second : gapSteps "می شود".toList = "می\u200cشود".toList := by decide +kernel
  have stable := @characterSteps_bare nfkc "می\tشود".toList (by decide) (by decide)
  have stable' := @characterSteps_bare nfkc "می شود".toList (by decide) (by decide)
  rw [normalize_eq, normalize_eq, stable, first, stable', second] at twice
  exact absurd twice (by decide)

end Nipoto.Normalize
