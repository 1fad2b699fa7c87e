import Nipoto.Retrieval.Blanks

/-! # Line ends

White space in front of a line feed, such as a carriage return, goes only after
blank lines were counted. So it keeps blank lines that would have been cut.
-/

namespace Nipoto.Normalize

open Text Text.Regex Text.Gaps

/-- A gap with few line feeds keeps them all. -/
theorem keptBreaks_few {g : Str} (few : g.count '\n' ≤ 2) : keptBreaks g = List.replicate (g.count '\n') '\n' := by
  induction size : g.length using Nat.strong_induction_on generalizing g with
  | h n ih =>
      by_cases member : '\n' ∈ g
      · obtain ⟨w, m, t, rfl, noBreak, ended⟩ := first_breaks member
        have count : (w ++ (List.replicate (m + 1) '\n' ++ t)).count '\n' = m + 1 + t.count '\n' := by
          have none : w.count '\n' = 0 := List.count_eq_zero.mpr fun inWord => noBreak '\n' inWord rfl
          simp [none]
        rw [count] at few ⊢
        simp only [List.length_append, List.length_replicate] at size
        rw [keptBreaks_inline noBreak, keptBreaks_run ended, if_neg (by omega), ih t.length (by omega) (by omega) rfl,
          List.replicate_append_replicate]
      · have noBreak : ∀ c ∈ g, c ≠ '\n' := by
          rintro c inGap rfl
          exact member inGap
        rw [keptBreaks_none noBreak, List.count_eq_zero.mpr member]
        rfl

theorem count_dropZwnj (g : Str) : (dropZwnj g).count '\n' = g.count '\n' :=
  List.count_filter (by decide)

theorem finalGap_short {l g r : Str} (single : '\n' ∉ g) : (finalGap l g r).length ≤ 1 := by
  by_cases half : IsHalfSpace l g r
  · simp [finalGap_of_half half]
  · rw [finalGap_of_blank half, blankGap, if_neg (break_mem_dropZwnj.not.mpr single)]
    split <;> simp

/-- White space in a line is put in front of line feeds, at least `low` characters of it. -/
abbrev Padded (low : Nat) : Str → Str → Prop :=
  Respaced (fun c => c ≠ '\n') fun u v =>
    u = ['\n'] ∧ ∃ w, low ≤ w.length ∧ (∀ c ∈ w, isInline c = true) ∧ v = w ++ ['\n']

namespace Padded

variable {low : Nat} {g g' : Str}

theorem nil_iff (padded : Padded low g g') : g = [] ↔ g' = [] :=
  Respaced.nil_iff (by rintro u v ⟨rfl, w, -, -, rfl⟩; simp) padded

theorem count_eq (padded : Padded low g g') : g'.count '\n' = g.count '\n' := by
  induction padded with
  | nil => rfl
  | keep kept _ ih => simp [kept, ih]
  | exchange changed _ ih =>
      obtain ⟨rfl, w, -, inline, rfl⟩ := changed
      have none : w.count '\n' = 0 :=
        List.count_eq_zero.mpr fun inWord => absurd (inline '\n' inWord) (by decide)
      simp [none, ih]

theorem breaks (padded : Padded low g g') : '\n' ∈ g' ↔ '\n' ∈ g := by
  rw [← List.count_pos_iff, padded.count_eq, List.count_pos_iff]

theorem same (padded : Padded low g g') (single : '\n' ∉ g) : g' = g := by
  induction padded with
  | nil => rfl
  | keep _ _ ih =>
      rw [ih fun later => single (List.mem_cons_of_mem _ later)]
  | exchange changed _ _ => exact absurd (by simp [changed.1]) single

/-- Padded line feeds do not touch each other, so all of them are kept. -/
theorem keptBreaks_all (padded : Padded 1 g g') :
    keptBreaks (dropZwnj g') = List.replicate (g.count '\n') '\n' ∧ ∀ c ∈ (dropZwnj g').head?, c ≠ '\n' := by
  induction padded with
  | nil => exact ⟨rfl, by simp [dropZwnj]⟩
  | @keep c s t kept _ ih =>
      rw [List.count_cons_of_ne kept]
      by_cases half : c = zwnj
      · have first : dropZwnj (c :: t) = dropZwnj t := by simp [dropZwnj, half]
        rw [first]
        exact ih
      · have first : dropZwnj (c :: t) = [c] ++ dropZwnj t := by simp [dropZwnj, half]
        rw [first, keptBreaks_inline (by simpa using kept)]
        exact ⟨ih.1, by simp [kept]⟩
  | @exchange u v s t changed _ ih =>
      obtain ⟨rfl, w, long, inline, rfl⟩ := changed
      have inLine : ∀ c ∈ w, c ≠ '\n' := by
        rintro c member rfl
        exact absurd (inline '\n' member) (by decide)
      have lineBreak : ('\n' : Char) ≠ zwnj := by decide
      have dropped : dropZwnj ((w ++ ['\n']) ++ t) = w ++ (List.replicate 1 '\n' ++ dropZwnj t) := by
        rw [List.append_assoc, dropZwnj_inline inline]
        simp [dropZwnj, lineBreak]
      obtain ⟨c, w, rfl⟩ := List.exists_cons_of_ne_nil (List.ne_nil_of_length_pos long)
      rw [dropped, keptBreaks_inline inLine, keptBreaks_run ih.2, ih.1]
      refine ⟨?_, ?_⟩
      · simp [List.replicate_succ]
      · intro d first
        obtain rfl : c = d := by simpa using first
        exact inLine c List.mem_cons_self

/-- With few line feeds a padded gap comes out like the gap. -/
theorem finalGap_few (padded : Padded low g g') (l r : Str) (few : g.count '\n' ≤ 2) :
    finalGap l g r = finalGap l g' r := by
  by_cases member : '\n' ∈ g
  · rw [finalGap_of_break member, finalGap_of_break (padded.breaks.mpr member), keptBreaks_few, keptBreaks_few,
      count_dropZwnj, count_dropZwnj, padded.count_eq]
    · rwa [count_dropZwnj, padded.count_eq]
    · rwa [count_dropZwnj]
  · rw [padded.same member]

/-- Where padding makes no difference, all line feeds were kept. -/
theorem finalGap_all (padded : Padded 1 g g') (l r : Str) (same : finalGap l g r = finalGap l g' r)
    (member : '\n' ∈ g) : finalGap l g r = List.replicate (g.count '\n') '\n' := by
  rw [same, finalGap_of_break (padded.breaks.mpr member), padded.keptBreaks_all.1]

theorem cells {f f' : Str} (padded : Padded low f f') : SameCells (Padded low) (cut isSep f).1 (cut isSep f').1 := by
  apply Respaced.cells _ padded
  rintro u v ⟨rfl, w, -, inline, rfl⟩
  have lineBreak : isSep '\n' = true := by decide
  refine ⟨by simp [IsGap, lineBreak], ?_⟩
  intro c member
  cases List.mem_append.mp member with
  | inl inPad => exact isSep_of_isSpace (isSpace_of_isInline (inline c inPad))
  | inr last => exact List.mem_singleton.mp last ▸ lineBreak

end Padded

theorem gapSteps_append_gap (f : Str) {w : Str} (gap : IsGap isSep w) : gapSteps (f ++ w) = gapSteps f := by
  have ended : ∀ {last : Str}, IsGap isSep last → IsGap isSep (last ++ w) := by
    intro last gapEnd c member
    cases List.mem_append.mp member with
    | inl first => exact gapEnd c first
    | inr second => exact gap c second
  induction f using text_cases isSep with
  | gap f blank => rw [gapSteps_blank (ended blank), gapSteps_blank blank]
  | cells g x cs last proper gapEnd =>
      have text : render ((g, x) :: cs) last ++ w = render ((g, x) :: cs) (last ++ w) := by
        rw [render_last _ last, render_last _ (last ++ w), List.append_assoc]
      rw [text, gapSteps_render proper (ended gapEnd), gapSteps_render proper gapEnd]

/-- White space is put at the end of lines, at least `low` characters at each. -/
abbrev PaddedLines (low : Nat) : List Str → List Str → Prop :=
  List.Forall₂ fun l l' => ∃ w, low ≤ w.length ∧ (∀ c ∈ w, isInline c = true) ∧ l' = l ++ w

section Lines

variable {nfkc : Str → Str} (parts : PartsAtSpace nfkc)

include parts

/-- White space at the end of a line is white space there after the character-level steps. -/
theorem characterSteps_padded_line (l : Str) {w : Str} (inline : ∀ c ∈ w, isInline c = true) :
    ∃ v, v.length = w.length ∧ (∀ c ∈ v, isInline c = true) ∧
      characterSteps nfkc (l ++ w) = characterSteps nfkc l ++ v := by
  cases w with
  | nil => exact ⟨[], rfl, by simp, by simp⟩
  | cons c w =>
      obtain ⟨v, size, spaces, run⟩ := parts.characterSteps_run inline []
      refine ⟨v, size, spaces, ?_⟩
      rw [List.append_nil, parts.characterSteps_nil, List.append_nil] at run
      rw [parts.characterSteps_append (isSpace_of_isInline (inline c List.mem_cons_self)), run]

theorem characterSteps_single {t : Str} (single : '\n' ∉ t) : '\n' ∉ characterSteps nfkc t := by
  induction t using split_induction (p := isSpace) with
  | whole a solid =>
      exact fun member => absurd (parts.characterSteps_made solid '\n' member (by decide)) (by decide)
  | parted a c b _ space left right =>
      have inLine : c ≠ '\n' := by
        rintro rfl
        exact single (by simp)
      obtain ⟨d, kind, split⟩ := parts.characterSteps_inline (isInline_of_ne space inLine) b
      have other : d ≠ '\n' := by
        cases kind with
        | inl kept => exact kept ▸ inLine
        | inr folded => exact folded ▸ by decide
      have first := left fun member => single (by simp [member])
      have second := right b le_rfl fun member => single (by simp [member])
      rw [parts.characterSteps_append space, split]
      simp [first, second, Ne.symm other]

theorem characterSteps_padded {low : Nat} {ls ls' : List Str} (padded : PaddedLines low ls ls')
    (single : ∀ l ∈ ls, '\n' ∉ l) (some : ls ≠ []) :
    ∃ f v, (∀ c ∈ v, isInline c = true) ∧ characterSteps nfkc (join ['\n'] ls') = f ++ v ∧
      Padded low (characterSteps nfkc (join ['\n'] ls)) f := by
  induction padded with
  | nil => exact absurd rfl some
  | @cons l l' ls ls' here rest ih =>
      obtain ⟨w, long, inline, rfl⟩ := here
      obtain ⟨v, size, spaces, first⟩ := characterSteps_padded_line parts l inline
      have kept : ∀ c ∈ characterSteps nfkc l, c ≠ '\n' := by
        rintro c member rfl
        exact characterSteps_single parts (single l List.mem_cons_self) member
      cases rest with
      | nil =>
          refine ⟨characterSteps nfkc l, v, spaces, by simpa [join] using first, ?_⟩
          have unchanged : Padded low (characterSteps nfkc l ++ []) (characterSteps nfkc l ++ []) :=
            Respaced.same kept .nil
          simpa [join] using unchanged
      | @cons m m' ls ls' here rest =>
          obtain ⟨f, v', spaces', later, padded⟩ := ih (fun k member => single k (List.mem_cons_of_mem l member))
            (by simp)
          have joined : ∀ (a b : Str) (others : List Str),
              join ['\n'] (a :: b :: others) = a ++ '\n' :: join ['\n'] (b :: others) := by
            intro a b others
            simp [join]
          have space : isSpace '\n' = true := by decide
          refine ⟨characterSteps nfkc l ++ (v ++ '\n' :: f), v', spaces', ?_, ?_⟩
          · rw [joined, parts.characterSteps_append space, parts.characterSteps_break, first, later]
            simp
          · rw [joined, parts.characterSteps_append space, parts.characterSteps_break]
            have exchanged : Padded low (['\n'] ++ characterSteps nfkc (join ['\n'] (m :: ls))) ((v ++ ['\n']) ++ f) :=
              .exchange ⟨rfl, v, by omega, spaces, rfl⟩ padded
            have whole := Respaced.same kept exchanged
            simpa using whole

theorem padded_gapSteps {low : Nat} {t : Str} {ls : List Str} (padded : PaddedLines low (lines t) ls) :
    ∃ f, gapSteps (characterSteps nfkc (join ['\n'] ls)) = gapSteps f ∧ Padded low (characterSteps nfkc t) f := by
  obtain ⟨f, v, spaces, text, related⟩ :=
    characterSteps_padded parts padded (fun _ => lines_single) (lines_ne_nil t)
  refine ⟨f, ?_, join_lines t ▸ related⟩
  rw [text, gapSteps_append_gap f fun c member => isSep_of_isSpace (isSpace_of_isInline (spaces c member))]

end Lines

/-- Every line feed becomes a carriage return and a line feed. -/
def crlf (t : Str) : Str := replaceChar '\n' ['\r', '\n'] t

/-- Spaces are put at the end of lines, as many as one likes at each. -/
def Trailed (t t' : Str) : Prop :=
  ∃ ls, t' = join ['\n'] ls ∧ List.Forall₂ (fun l l' => ∃ n, l' = l ++ List.replicate n ' ') (lines t) ls

/-- Line ends make no difference, and no two empty lines stand together. -/
structure EndsIgnored (nfkc : Str → Str) (t : Str) : Prop where
  returns : normalize nfkc (crlf t) = normalize nfkc t
  trailed : ∀ t', Trailed t t' → normalize nfkc t' = normalize nfkc t
  parted : ¬ ['\n', '\n', '\n'] <:+: normalize nfkc t

theorem crlf_lines (t : Str) : crlf t ++ ['\r'] = join ['\n'] ((lines t).map (· ++ ['\r'])) := by
  induction t with
  | nil => rfl
  | cons c t ih =>
      by_cases atBreak : c = '\n'
      · subst atBreak
        have joined : join ['\n'] (['\r'] :: (lines t).map (· ++ ['\r'])) =
            '\r' :: '\n' :: join ['\n'] ((lines t).map (· ++ ['\r'])) := by
          rw [join_cons, join_break _ (by simp [lines_ne_nil])]
        rw [lines_break, List.map_cons, List.nil_append, joined, ← ih]
        simp [crlf, replaceChar]
      · obtain ⟨rest, split⟩ := lines_eq t
        rw [split] at ih
        rw [lines_cons atBreak, split, List.modifyHead_cons, List.map_cons, List.cons_append, join_cons,
          ← List.map_cons (f := (· ++ ['\r'])), ← ih]
        simp [crlf, replaceChar, atBreak]

/-- A word of separators is not in the output just if it is in none of its gaps. -/
theorem not_infix_gapSteps {f w : Str} (gap : IsGap isSep w) (some : w ≠ []) :
    ¬ w <:+: gapSteps f ↔
      ∀ a g b, Interior isSep a g b f → ¬ w <:+: finalGap (touching isBlock a.reverse) g (b.takeWhile isBlock) := by
  induction f using text_cases isSep with
  | gap f blank =>
      rw [gapSteps_blank blank, List.infix_nil]
      exact iff_of_true some fun a g b interior => absurd interior (not_interior blank)
  | cells g x cs last proper gapEnd =>
      have gaps := infix_render gap (final_proper proper) []
      have every := @forall_mapCells Char isBlock finalGap (fun g => ¬ w <:+: g) (startRun x) cs
      rw [← startRun_gap g x, everyGap_iff_interior isBlock_of_isSep proper gapEnd] at every
      rw [gapSteps_render proper gapEnd, ← every, startRun_gap g x]
      simp only [render, List.nil_append] at gaps
      rw [gaps]
      simp [some]

theorem returns_padded (t : Str) : PaddedLines 1 (lines t) ((lines t).map (· ++ ['\r'])) := by
  induction lines t with
  | nil => exact .nil
  | cons l ls ih => exact .cons ⟨['\r'], le_rfl, by decide, rfl⟩ ih

theorem spaces_padded {ls ls' : List Str} (trailed : List.Forall₂ (fun l l' => ∃ n, l' = l ++ List.replicate n ' ') ls ls') :
    PaddedLines 0 ls ls' := by
  induction trailed with
  | nil => exact .nil
  | cons here _ ih =>
      obtain ⟨n, same⟩ := here
      refine .cons ⟨List.replicate n ' ', Nat.zero_le _, ?_, same⟩ ih
      intro c member
      rw [List.eq_of_mem_replicate member]
      decide

theorem finalGap_length {l g r : Str} (few : g.count '\n' ≤ 2) : (finalGap l g r).length ≤ 2 := by
  by_cases member : '\n' ∈ g
  · rw [finalGap_of_break member, keptBreaks_few (by rwa [count_dropZwnj]), List.length_replicate, count_dropZwnj]
    exact few
  · exact (finalGap_short member).trans (by decide)

theorem three_breaks_gap : IsGap isSep ['\n', '\n', '\n'] := by
  intro c member
  obtain rfl : c = '\n' := by simpa using member
  decide

theorem three_breaks_infix {n : Nat} (many : 2 < n) : ['\n', '\n', '\n'] <:+: List.replicate n '\n' := by
  refine ⟨[], List.replicate (n - 3) '\n', ?_⟩
  rw [List.nil_append, show ['\n', '\n', '\n'] = List.replicate 3 '\n' from rfl, List.replicate_append_replicate]
  congr 1
  omega

/-- Padding makes no difference where there are few line feeds. -/
theorem gapSteps_padded {low : Nat} {f f' : Str} (padded : Padded low f f')
    (few : ∀ a g b, Interior isSep a g b f → g.count '\n' ≤ 2) : gapSteps f = gapSteps f' :=
  (@gapSteps_respaced (Padded low) (fun _ g _ => g.count '\n' ≤ 2) (fun _ _ _ => True) f f' padded.cells
    (fun _ _ => Padded.nil_iff) (fun l _ _ r _ related => related.finalGap_few l r) (fun _ _ _ _ _ _ _ => trivial)).1 few

section Ends

variable {nfkc : Str → Str} (parts : PartsAtSpace nfkc) (t : Str)

include parts

theorem returns_gapSteps :
    ∃ f, normalize nfkc (crlf t) = gapSteps f ∧ Padded 1 (characterSteps nfkc t) f := by
  obtain ⟨f, text, padded⟩ := padded_gapSteps parts (returns_padded t)
  obtain ⟨v, -, spaces, trailing⟩ := characterSteps_padded_line parts (crlf t) (show ∀ c ∈ ['\r'], isInline c = true by decide)
  refine ⟨f, ?_, padded⟩
  rw [parts.normalize_eq, ← text, ← crlf_lines, trailing,
    gapSteps_append_gap _ fun c member => isSep_of_isSpace (isSpace_of_isInline (spaces c member))]

/-- Line ends make no difference just if no two neighbouring characters have more than two
    line feeds between them. -/
theorem endsIgnored_iff :
    EndsIgnored nfkc t ↔ ∀ a g b, Interior isSep a g b (characterSteps nfkc t) → g.count '\n' ≤ 2 := by
  obtain ⟨f, returns, padded⟩ := returns_gapSteps parts t
  have parted := not_infix_gapSteps (f := characterSteps nfkc t) three_breaks_gap (by simp)
  rw [← parts.normalize_eq] at parted
  constructor
  · intro ignored a g b interior
    by_contra many
    have member : '\n' ∈ g := List.count_pos_iff.mp (by omega)
    have same : gapSteps (characterSteps nfkc t) = gapSteps f := by
      rw [← parts.normalize_eq, ← returns, ignored.returns]
    have all := (@gapSteps_respaced (Padded 1) (fun _ g _ => g.count '\n' ≤ 2)
      (fun l g r => '\n' ∈ g → finalGap l g r = List.replicate (g.count '\n') '\n') _ _ padded.cells
      (fun _ _ => Padded.nil_iff) (fun l _ _ r _ related => related.finalGap_few l r)
      (fun l _ _ r _ related => related.finalGap_all l r)).2 same a g b interior member
    apply parted.mp ignored.parted a g b interior
    rw [all]
    exact three_breaks_infix (by omega)
  · intro few
    refine ⟨?_, ?_, ?_⟩
    · rw [returns, parts.normalize_eq, gapSteps_padded padded few]
    · rintro t' ⟨ls, rfl, trailed⟩
      obtain ⟨f', text, padded'⟩ := padded_gapSteps parts (spaces_padded trailed)
      rw [parts.normalize_eq, parts.normalize_eq, text, gapSteps_padded padded' few]
    · apply parted.mpr
      intro a g b interior inGap
      have long := inGap.length_le
      have short := @finalGap_length (touching isBlock a.reverse) g (b.takeWhile isBlock) (few a g b interior)
      simp only [List.length_cons, List.length_nil] at long
      omega

end Ends

theorem endsIgnored_iff_two :
    PartsAtSpace (fun t => t) ∧
      (EndsIgnored (fun t => t) "a\nb".toList ↔
        ∀ a g b, Interior isSep a g b (characterSteps (fun t => t) "a\nb".toList) → g.count '\n' ≤ 2) :=
  ⟨partsAtSpace_id, endsIgnored_iff partsAtSpace_id "a\nb".toList⟩

set_option maxRecDepth 8000 in
/-- With line feeds only, two of the three are left; with carriage returns all three are. -/
theorem returns_keep_blank_lines :
    PartsAtSpace (fun t => t) ∧ ¬ EndsIgnored (fun t => t) "a\n\n\nb".toList :=
  ⟨partsAtSpace_id, fun ignored => absurd ignored.returns (by decide +kernel)⟩

end Nipoto.Normalize
