import Nipoto.Retrieval.Edits
import Nipoto.Retrieval.LineByLine
import Nipoto.Text.Respaced

/-! # The kind of white space in a line

Every run of white space other than line feeds ends as one space, whatever it is
made of. A half-space rule that looks at the run before that tells a space from
other white space.
-/

namespace Nipoto.Normalize

open Text Text.Regex Text.Gaps

/-- White space takes part in no composition. In a line it stays or becomes a space, and
    a space is the only white space that is made from other characters. -/
structure PartsAtSpace (nfkc : Str → Str) : Prop where
  empty : nfkc [] = []
  across : ∀ a c b, isSpace c = true → nfkc (a ++ c :: b) = nfkc a ++ (nfkc [c] ++ nfkc b)
  lineFeed : nfkc ['\n'] = ['\n']
  inline : ∀ c, isInline c = true → nfkc [c] = [c] ∨ nfkc [c] = [' ']
  made : ∀ t, (∀ c ∈ t, isSpace c = false) → ∀ c ∈ nfkc t, isSpace c = true → c = ' '

theorem partsAtSpace_id : PartsAtSpace fun t => t where
  empty := rfl
  across _ _ _ _ := rfl
  lineFeed := rfl
  inline _ _ := .inl rfl
  made t solid c member space := absurd space (by simp [solid c member])

theorem isSpace_of_isInline {c : Char} (inline : isInline c = true) : isSpace c = true := by
  rw [isInline, Bool.and_eq_true] at inline
  exact inline.1

namespace PartsAtSpace

variable {nfkc : Str → Str} (parts : PartsAtSpace nfkc)

include parts

theorem characterSteps_nil : characterSteps nfkc [] = [] := by
  rw [characterSteps_eq, parts.empty]
  rfl

theorem characterSteps_append {c : Char} (space : isSpace c = true) (a b : Str) :
    characterSteps nfkc (a ++ c :: b) = characterSteps nfkc a ++ characterSteps nfkc (c :: b) := by
  have first := parts.across [] c b space
  rw [List.nil_append, parts.empty, List.nil_append] at first
  simp only [characterSteps_eq, parts.across a c b space, first, List.flatMap_append]

theorem characterSteps_break (b : Str) : characterSteps nfkc ('\n' :: b) = '\n' :: characterSteps nfkc b := by
  have first := parts.across [] '\n' b (by decide)
  have fixed : foldChar '\n' = ['\n'] := by decide
  rw [List.nil_append, parts.empty, List.nil_append, parts.lineFeed] at first
  simp only [characterSteps_eq, first, List.flatMap_append, List.flatMap_cons, fixed]
  rfl

theorem characterSteps_inline {c : Char} (inline : isInline c = true) (b : Str) :
    ∃ d, (d = c ∨ d = ' ') ∧ characterSteps nfkc (c :: b) = d :: characterSteps nfkc b := by
  have first := parts.across [] c b (isSpace_of_isInline inline)
  rw [List.nil_append, parts.empty, List.nil_append] at first
  cases parts.inline c inline with
  | inl kept =>
      refine ⟨c, .inl rfl, ?_⟩
      simp [characterSteps_eq, first, kept, foldChar_space (isSpace_of_isInline inline)]
  | inr folded =>
      refine ⟨' ', .inr rfl, ?_⟩
      simp [characterSteps_eq, first, folded, foldChar_space (show isSpace ' ' = true by decide)]

theorem characterSteps_run {w : Str} (inline : ∀ c ∈ w, isInline c = true) (b : Str) :
    ∃ v, v.length = w.length ∧ (∀ c ∈ v, isInline c = true) ∧
      characterSteps nfkc (w ++ b) = v ++ characterSteps nfkc b := by
  induction w with
  | nil => exact ⟨[], rfl, by simp, rfl⟩
  | cons c w ih =>
      obtain ⟨v, size, spaces, split⟩ := ih fun d member => inline d (List.mem_cons_of_mem c member)
      obtain ⟨d, kind, first⟩ := parts.characterSteps_inline (inline c List.mem_cons_self) (w ++ b)
      refine ⟨d :: v, congrArg (· + 1) size, ?_, by rw [List.cons_append, first, split]; rfl⟩
      intro e member
      cases List.mem_cons.mp member with
      | inl here =>
          rw [here]
          cases kind with
          | inl kept => exact kept ▸ inline c List.mem_cons_self
          | inr folded => exact folded ▸ by decide
      | inr later => exact spaces e later

theorem characterSteps_made {t : Str} (solid : ∀ c ∈ t, isSpace c = false) :
    ∀ c ∈ characterSteps nfkc t, isSpace c = true → c = ' ' := by
  intro c member space
  rw [characterSteps_eq] at member
  obtain ⟨d, known, inFold⟩ := List.mem_flatMap.mp member
  obtain gone | same | ⟨e, target, same⟩ := foldChar_folded d
  · rw [gone] at inFold
    exact absurd inFold List.not_mem_nil
  · rw [same] at inFold
    obtain rfl := List.mem_singleton.mp inFold
    exact parts.made t solid c known space
  · rw [same] at inFold
    obtain rfl := List.mem_singleton.mp inFold
    exact absurd space ((by decide : ∀ e ∈ foldTargets, ¬ isSpace e = true) c target)

theorem normalize_eq (t : Str) : normalize nfkc t = gapSteps (characterSteps nfkc t) :=
  normalize_eq_gapSteps parts.characterSteps_nil t

end PartsAtSpace

/-- Two texts that differ in their gaps come out the same as far as their inner gaps do. -/
theorem gapSteps_respaced {R : Str → Str → Prop} {Enough Needed : (left gap right : Str) → Prop} {f f' : Str}
    (same : SameCells R (cut isSep f).1 (cut isSep f').1) (empty : ∀ g g', R g g' → (g = [] ↔ g' = []))
    (enough : ∀ l g g' r, IsGap isSep g' → R g g' → Enough l g r → finalGap l g r = finalGap l g' r)
    (needed : ∀ l g g' r, IsGap isSep g' → R g g' → finalGap l g r = finalGap l g' r → Needed l g r) :
    ((∀ a g b, Interior isSep a g b f → Enough (touching isBlock a.reverse) g (b.takeWhile isBlock)) →
        gapSteps f = gapSteps f') ∧
      (gapSteps f = gapSteps f' →
        ∀ a g b, Interior isSep a g b f → Needed (touching isBlock a.reverse) g (b.takeWhile isBlock)) := by
  have cells := cut_proper isSep f
  have cells' := cut_proper isSep f'
  rw [← render_cut isSep f, ← render_cut isSep f']
  generalize (cut isSep f).1 = cs, (cut isSep f').1 = ds at same cells cells'
  cases same with
  | nil =>
      have none := @not_interior (render [] (cut isSep f).2)
      rw [render, render, gapSteps_blank cells.2, gapSteps_blank cells'.2]
      exact ⟨fun _ => rfl, fun _ a g b interior => absurd interior (none cells.2)⟩
  | @cons c d cs ds here rest =>
      obtain ⟨g, x⟩ := c
      obtain ⟨g', y⟩ := d
      obtain ⟨rfl, -⟩ : x = y ∧ R g g' := here
      have meet := @SameCells.mapCells_eq Char isSep isBlock R cs ds finalGap Enough Needed empty enough needed
        (cells'.1.tail isSep) rest (startRun x)
      rw [← startRun_gap g x, everyGap_iff_interior isBlock_of_isSep cells.1 cells.2,
        everyGap_iff_interior isBlock_of_isSep cells.1 cells.2] at meet
      rw [gapSteps_eq_iff cells.1 cells.2 cells'.1 cells'.2, ← startRun_gap g x]
      exact meet

theorem blankGap_congr {g g' : Str} (empty : g = [] ↔ g' = []) (lineBreak : '\n' ∈ g ↔ '\n' ∈ g')
    (kept : keptBreaks g = keptBreaks g') : blankGap g = blankGap g' := by
  simp only [blankGap, empty, lineBreak, kept]

/-- Where only the breaks count, two gaps meet just if both or none are half-spaces. -/
theorem finalGap_eq_iff {l g g' r : Str} (blank : blankGap (dropZwnj g) = blankGap (dropZwnj g')) :
    finalGap l g r = finalGap l g' r ↔ (IsHalfSpace l g r ↔ IsHalfSpace l g' r) := by
  have apart : ∀ h : Str, ¬ IsHalfSpace l h r → finalGap l h r ≠ [zwnj] := by
    intro h other half
    exact other (half_of_zwnj (by simp [half]))
  by_cases half : IsHalfSpace l g r
  · by_cases half' : IsHalfSpace l g' r
    · simp [half, half', finalGap_of_half]
    · simp [half, half', finalGap_of_half half, Ne.symm (apart g' half')]
  · by_cases half' : IsHalfSpace l g' r
    · simp [half, half', finalGap_of_half half', apart g half]
    · simp [half, half', finalGap_of_blank half, finalGap_of_blank half', blank]

/-- Every run of white space without line feeds becomes one space. -/
def oneSpace (t : Str) : Str := sub spaces (fun _ => [' ']) t

/-- A run of white space in a line is exchanged for a space; no other white space in a line
    but a space is kept. -/
abbrev OneSpaced : Str → Str → Prop :=
  Respaced (fun c => isInline c = true → c = ' ') fun u v => u ≠ [] ∧ (∀ c ∈ u, isInline c = true) ∧ v = [' ']

theorem oneSpace_outside {a : Str} (outside : ∀ c ∈ a, isInline c = false) (t : Str) :
    oneSpace (a ++ t) = a ++ oneSpace t := by
  induction a with
  | nil => rfl
  | cons c a ih =>
      have first := @squeeze_append_outside 1 isInline [' '] (by decide) c (outside c List.mem_cons_self) [] (a ++ t)
      exact first.trans (congrArg (c :: ·) (ih fun d member => outside d (List.mem_cons_of_mem c member)))

theorem oneSpace_run {w t : Str} (some : w ≠ []) (inline : ∀ c ∈ w, isInline c = true)
    (ended : ∀ c ∈ t.head?, isInline c = false) : oneSpace (w ++ t) = ' ' :: oneSpace t := by
  have run := @squeeze_run 1 isInline [' '] (by decide) w inline t ended
  rw [if_pos (show 1 ≤ w.length from List.length_pos_iff.mpr some)] at run
  exact run

theorem characterSteps_oneSpaced {nfkc : Str → Str} (parts : PartsAtSpace nfkc) (t : Str) :
    OneSpaced (characterSteps nfkc t) (characterSteps nfkc (oneSpace t)) := by
  have outside : ∀ {a : Str}, (∀ c ∈ a, isSpace c = false) → ∀ c ∈ a, isInline c = false :=
    fun solid c member => by simp [isInline, solid c member]
  have kept : ∀ {a : Str}, (∀ c ∈ a, isSpace c = false) → ∀ c ∈ characterSteps nfkc a, isInline c = true → c = ' ' :=
    fun solid c member inline => parts.characterSteps_made solid c member (isSpace_of_isInline inline)
  induction t using split_induction (p := isSpace) with
  | whole a solid =>
      have same := oneSpace_outside (outside solid) []
      have unchanged : OneSpaced (characterSteps nfkc a ++ []) (characterSteps nfkc a ++ []) := .same (kept solid) .nil
      rw [List.append_nil] at same unchanged
      rw [same]
      simpa [oneSpace, sub] using unchanged
  | parted a c b solid space _ later =>
      rw [oneSpace_outside (outside solid), parts.characterSteps_append space]
      by_cases atBreak : c = '\n'
      · subst atBreak
        have first := @oneSpace_outside ['\n'] (by decide) b
        rw [List.singleton_append, List.singleton_append] at first
        rw [first, parts.characterSteps_append space, parts.characterSteps_break, parts.characterSteps_break]
        exact .same (kept solid) (.keep (by decide) (later b le_rfl))
      · have inline : isInline c = true := isInline_of_ne space atBreak
        have whole : c :: b = (c :: b.takeWhile isInline) ++ b.dropWhile isInline := by simp
        have run : ∀ d ∈ c :: b.takeWhile isInline, isInline d = true := by
          intro d member
          cases List.mem_cons.mp member with
          | inl here => exact here ▸ inline
          | inr inRun => exact List.mem_takeWhile_imp inRun
        obtain ⟨v, long, spaces, first⟩ := parts.characterSteps_run run (b.dropWhile isInline)
        obtain ⟨d, kind, second⟩ := parts.characterSteps_inline (show isInline ' ' = true by decide)
          (oneSpace (b.dropWhile isInline))
        obtain rfl : d = ' ' := kind.elim id id
        have some : v ≠ [] := List.ne_nil_of_length_pos (by simp [long])
        rw [whole, oneSpace_run (by simp) run (dropWhile_head b), parts.characterSteps_append (by decide), first, second]
        exact .same (kept solid) (.exchange ⟨some, spaces, rfl⟩ (later _ (List.dropWhile_suffix isInline).length_le))

variable {g g' : Str}

theorem OneSpaced.breaks (related : OneSpaced g g') : '\n' ∈ g ↔ '\n' ∈ g' := by
  have noBreak : ∀ {u : Str}, (∀ c ∈ u, isInline c = true) → '\n' ∉ u :=
    fun inline member => absurd (inline '\n' member) (by decide)
  induction related with
  | nil => exact Iff.rfl
  | keep _ _ ih => simp [ih]
  | exchange changed _ ih => simp [ih, noBreak changed.2.1, changed.2.2]

theorem OneSpaced.zwnjs (related : OneSpaced g g') : (∀ c ∈ g, c = zwnj) ↔ ∀ c ∈ g', c = zwnj := by
  induction related with
  | nil => exact Iff.rfl
  | keep _ _ ih => simp [ih]
  | @exchange u v s t changed _ ih =>
      obtain ⟨some, inline, rfl⟩ := changed
      have space : (' ' : Char) ≠ zwnj := by decide
      obtain ⟨c, u, rfl⟩ := List.exists_cons_of_ne_nil some
      have other : c ≠ zwnj := by
        rintro rfl
        exact absurd (inline zwnj List.mem_cons_self) (by decide)
      simp [space, other]

theorem keptBreaks_parted {u : Str} (some : u ≠ []) (inline : ∀ c ∈ u, isInline c = true) (n : Nat) (t : Str) :
    keptBreaks (List.replicate n '\n' ++ (u ++ t)) = keptBreaks (List.replicate n '\n') ++ keptBreaks t := by
  have inLine : ∀ c ∈ u, c ≠ '\n' := by
    rintro c member rfl
    exact absurd (inline '\n' member) (by decide)
  obtain ⟨c, u, rfl⟩ := List.exists_cons_of_ne_nil some
  rw [List.cons_append, keptBreaks_append (inLine c List.mem_cons_self),
    keptBreaks_inline fun d member => inLine d (List.mem_cons_of_mem c member)]

theorem dropZwnj_inline {u : Str} (inline : ∀ c ∈ u, isInline c = true) (t : Str) :
    dropZwnj (u ++ t) = u ++ dropZwnj t := by
  rw [dropZwnj, List.filter_append, List.filter_eq_self.mpr, dropZwnj]
  intro c member
  simp only [bne_iff_ne, ne_eq]
  rintro rfl
  exact absurd (inline zwnj member) (by decide)

theorem keptBreaks_keep {s t : Str} (c : Char)
    (rest : ∀ n, keptBreaks (List.replicate n '\n' ++ dropZwnj s) = keptBreaks (List.replicate n '\n' ++ dropZwnj t))
    (n : Nat) :
    keptBreaks (List.replicate n '\n' ++ dropZwnj (c :: s)) =
      keptBreaks (List.replicate n '\n' ++ dropZwnj (c :: t)) := by
  by_cases half : c = zwnj
  · simpa [dropZwnj, half] using rest n
  · have kept : ∀ u : Str, dropZwnj (c :: u) = c :: dropZwnj u := fun u => by simp [dropZwnj, half]
    rw [kept, kept]
    by_cases atBreak : c = '\n'
    · subst atBreak
      have longer : ∀ u : Str, List.replicate n '\n' ++ '\n' :: u = List.replicate (n + 1) '\n' ++ u := by
        intro u
        rw [List.replicate_succ', List.append_assoc]
        rfl
      rw [longer, longer, rest]
    · rw [keptBreaks_append atBreak, keptBreaks_append atBreak]
      exact congrArg _ (rest 0)

/-- The line breaks in front of related gaps and in them are cut alike. -/
theorem OneSpaced.keptBreaks_eq (related : OneSpaced g g') (n : Nat) :
    keptBreaks (List.replicate n '\n' ++ dropZwnj g) = keptBreaks (List.replicate n '\n' ++ dropZwnj g') := by
  induction related generalizing n with
  | nil => rfl
  | @keep c s t _ _ ih => exact keptBreaks_keep c ih n
  | @exchange u v s t changed _ ih =>
      obtain ⟨some, inline, rfl⟩ := changed
      have single : ∀ c ∈ [' '], isInline c = true := by decide
      rw [dropZwnj_inline inline, dropZwnj_inline single, keptBreaks_parted some inline,
        keptBreaks_parted (by simp) single]
      exact congrArg _ (ih 0)

theorem OneSpaced.plain (related : OneSpaced g g') : ∀ c ∈ g', isInline c = true → c = ' ' := by
  induction related with
  | nil => simp
  | keep kept _ ih =>
      intro c member
      cases List.mem_cons.mp member with
      | inl here => exact here ▸ kept
      | inr later => exact ih c later
  | exchange changed _ ih =>
      intro c member
      cases List.mem_append.mp member with
      | inl here => exact fun _ => by simpa [changed.2.2] using here
      | inr later => exact ih c later

/-- A gap comes out as its spaced form just if no rule is kept from it by other white space. -/
theorem OneSpaced.finalGap_iff (gap' : IsGap isSep g') (related : OneSpaced g g') (l r : Str) :
    finalGap l g r = finalGap l g' r ↔ (WordRule l r → '\n' ∉ g → ∀ c ∈ g, isSpaceOrZwnj c = true) := by
  have empty : g = [] ↔ g' = [] := related.nil_iff (by rintro u v ⟨some, -, rfl⟩; exact ⟨some, by simp⟩)
  have dropped : dropZwnj g = [] ↔ dropZwnj g' = [] := by rw [dropZwnj_eq_nil, dropZwnj_eq_nil, related.zwnjs]
  have breaks : '\n' ∈ dropZwnj g ↔ '\n' ∈ dropZwnj g' := by
    rw [break_mem_dropZwnj, break_mem_dropZwnj, related.breaks]
  rw [finalGap_eq_iff (blankGap_congr dropped breaks (related.keptBreaks_eq 0))]
  by_cases rule : WordRule l r
  · by_cases lineBreak : '\n' ∈ g
    · refine iff_of_true ?_ fun _ single => absurd lineBreak single
      exact iff_of_false (not_half_of_break lineBreak) (not_half_of_break (related.breaks.mp lineBreak))
    · have spelled : ∀ c ∈ g', isSpaceOrZwnj c = true := by
        intro c member
        have separator := gap' c member
        rw [isSep, Bool.or_eq_true] at separator
        rw [isSpaceOrZwnj, Bool.or_eq_true]
        refine separator.imp_left fun space => ?_
        have inLine : c ≠ '\n' := by
          rintro rfl
          exact lineBreak (related.breaks.mpr member)
        exact beq_iff_eq.mpr (related.plain c member (isInline_of_ne space inLine))
      by_cases none : g = []
      · rw [none, empty.mp none]
        simp
      · rw [half_of_rule rule none, half_of_rule rule (mt empty.mpr none)]
        simp only [IsJoint, ne_eq, none, mt empty.mpr none, not_false_eq_true, true_and, rule, lineBreak, true_imp_iff]
        exact iff_true_right spelled
  · rw [half_without_rule rule, half_without_rule rule]
    simp only [AllZwnj, empty, related.zwnjs, ne_eq, rule, false_imp_iff]

/-- All white space in a line counts as one space just if, wherever two words call for a
    half-space, nothing but spaces and half-spaces or a line feed stands between them. -/
theorem normalize_oneSpace_iff {nfkc : Str → Str} (parts : PartsAtSpace nfkc) (t : Str) :
    normalize nfkc t = normalize nfkc (oneSpace t) ↔
      ∀ a g b, Interior isSep a g b (characterSteps nfkc t) →
        WordRule (touching isBlock a.reverse) (b.takeWhile isBlock) → '\n' ∉ g → ∀ c ∈ g, isSpaceOrZwnj c = true := by
  have gaps : ∀ u v : Str, (u ≠ [] ∧ (∀ c ∈ u, isInline c = true) ∧ v = [' ']) → IsGap isSep u ∧ IsGap isSep v := by
    rintro u v ⟨-, inline, rfl⟩
    exact ⟨fun c member => isSep_of_isSpace (isSpace_of_isInline (inline c member)), by simp [IsGap, isSep, isSpace]⟩
  rw [parts.normalize_eq, parts.normalize_eq]
  have meet := @gapSteps_respaced OneSpaced _ _ _ _ ((characterSteps_oneSpaced parts t).cells gaps)
    (fun g g' related => related.nil_iff (by rintro u v ⟨some, -, rfl⟩; exact ⟨some, by simp⟩))
    (fun l g g' r gap' related => (OneSpaced.finalGap_iff gap' related l r).mpr)
    (fun l g g' r gap' related => (OneSpaced.finalGap_iff gap' related l r).mp)
  exact ⟨meet.2, meet.1⟩

theorem normalize_oneSpace_iff_tab :
    PartsAtSpace (fun t => t) ∧
      (normalize (fun t => t) "کتاب\tخوب".toList = normalize (fun t => t) (oneSpace "کتاب\tخوب".toList) ↔
        ∀ a g b, Interior isSep a g b (characterSteps (fun t => t) "کتاب\tخوب".toList) →
          WordRule (touching isBlock a.reverse) (b.takeWhile isBlock) → '\n' ∉ g →
            ∀ c ∈ g, isSpaceOrZwnj c = true) :=
  ⟨partsAtSpace_id, normalize_oneSpace_iff partsAtSpace_id "کتاب\tخوب".toList⟩

set_option maxRecDepth 8000 in
/-- A tab between a prefix and its verb keeps them apart, a space does not. -/
theorem tab_before_verb :
    PartsAtSpace (fun t => t) ∧
      normalize (fun t => t) "می\tشود".toList ≠ normalize (fun t => t) (oneSpace "می\tشود".toList) :=
  ⟨partsAtSpace_id, by decide +kernel⟩

end Nipoto.Normalize
