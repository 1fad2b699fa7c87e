import Nipoto.Retrieval.Soundness

/-! # One pass of the half-space rules is enough

The texts that the half-space steps leave alone are those in which no rule has
anything to do. A normalised text is one of them, unless a space in it was made
of other white space than spaces.
-/

namespace Nipoto.Normalize

open Text Text.Regex Text.Gaps

/-- No half-space rule has anything to do. Every half-space has word characters on both sides;
    between a prefix and a word or before a suffix, spaces and half-spaces are one half-space;
    and no word is a prefix and a listed stem. -/
structure HalfSpaced (t : Str) : Prop where
  between : ∀ a b, t = a ++ zwnj :: b → touching isBlock a.reverse ≠ [] ∧ b.takeWhile isBlock ≠ []
  spaced : ∀ a p g b, t = a ++ p ++ (g ++ b) → touching isBlock a.reverse = [] → p ∈ prefixes → IsJoint g →
    b.takeWhile isBlock ≠ [] → g = [zwnj]
  attached : ∀ a p s b, t = a ++ p ++ (s ++ b) → touching isBlock a.reverse = [] → p ∈ prefixes → s ∈ verbStems →
    b.takeWhile isBlock ≠ []
  suffix : ∀ a g s b, t = a ++ (g ++ (s ++ b)) → 2 ≤ (touching isBlock a.reverse).length → IsJoint g →
    s ∈ suffixes → b.takeWhile isBlock = [] → g = [zwnj]

/-- Every gap is what the half-space steps make of it. -/
def GapsKept (t : Str) : Prop :=
  ∀ a g b, Maximal isSep a g b t → halfSpaceGap (touching isBlock a.reverse) g (b.takeWhile isBlock) = g

theorem mapCells_same (run : Str) (cs : List (Cell Char)) : mapCells isBlock (fun _ g _ => g) run cs = cs := by
  induction cs generalizing run with
  | nil => rfl
  | cons c cs ih =>
      obtain ⟨g, x⟩ := c
      rw [mapCells, ih]

theorem halfSpaceSteps_eq_gaps (t : Str) : halfSpaceSteps t = t ↔ GapsKept t := by
  have cells := cut_proper isSep t
  have text := render_cut isSep t
  generalize (cut isSep t).1 = cs at cells text
  generalize (cut isSep t).2 = last at cells text
  subst text
  have mapped := mapCells_proper isSep isBlock halfSpaceGap_gap cells.1 []
  rw [halfSpaceSteps_render cells.1 cells.2, rewrite, GapsKept,
    ← everyGap_iff_maximal (P := fun l g r => halfSpaceGap l g r = g) isBlock_of_isSep cells.1 cells.2,
    ← mapCells_eq_iff (k := fun _ g _ => g), mapCells_same]
  constructor
  · intro same
    exact render_injective isSep mapped (halfSpaceGap_gap _ _ _ cells.2) cells.1 cells.2 same
  · rintro ⟨same, ending⟩
    rw [same, ending]

section Rules

variable {t a g b : Str}

theorem solid_before (word : touching isBlock a.reverse ≠ []) : ∀ x ∈ a.getLast?, isSep x = false := by
  intro x atEnd
  rw [List.getLast?_eq_head?_reverse] at atEnd
  cases reversed : a.reverse with
  | nil => simp [reversed] at atEnd
  | cons y t =>
      obtain rfl : y = x := by simpa [reversed] using atEnd
      rw [reversed] at word
      by_contra separator
      exact word (touching_cons_other isBlock (isBlock_of_isSep y (by simpa using separator)) t)

theorem solid_after (word : b.takeWhile isBlock ≠ []) : ∀ x ∈ b.head?, isSep x = false := by
  intro x atHead
  cases b with
  | nil => simp at atHead
  | cons y t =>
      obtain rfl : y = x := by simpa using atHead
      by_contra separator
      exact word (by simp [isBlock_of_isSep y (by simpa using separator)])

theorem IsHalfSpace.gap {l r : Str} (half : IsHalfSpace l g r) : IsGap isSep g := by
  obtain ⟨-, -, attached | zwnjs | joint⟩ := half
  · simp [IsGap, attached.1]
  · exact zwnjs.joint.gap
  · exact joint.1.gap

/-- A gap that calls for a half-space is one. -/
theorem GapsKept.half {l r : Str} (kept : GapsKept t) (split : t = a ++ (g ++ b)) (left : touching isBlock a.reverse = l)
    (right : b.takeWhile isBlock = r) (half : IsHalfSpace l g r) : g = [zwnj] := by
  subst left right
  have here := kept a g b ⟨split, half.gap, solid_before half.1, solid_after half.2.1⟩
  rw [halfSpaceGap, if_pos half] at here
  exact here.symm

theorem GapsKept.between (kept : GapsKept (a ++ zwnj :: b)) : touching isBlock a.reverse ≠ [] ∧ b.takeWhile isBlock ≠ [] := by
  obtain ⟨a, g, h, b, rfl, rfl, maximal⟩ := maximal_of_separator (by decide : isSep zwnj = true) a b
  have here := kept _ _ _ maximal
  by_cases half : IsHalfSpace (touching isBlock a.reverse) (g ++ zwnj :: h) (b.takeWhile isBlock)
  · rw [halfSpaceGap, if_pos half] at here
    obtain ⟨rfl, rfl⟩ : g = [] ∧ h = [] := by
      have size := congrArg List.length here
      simp only [List.length_append, List.length_cons, List.length_nil] at size
      exact ⟨List.length_eq_zero_iff.mp (by omega), List.length_eq_zero_iff.mp (by omega)⟩
    rw [List.append_nil]
    exact ⟨half.1, half.2.1⟩
  · rw [halfSpaceGap, if_neg half] at here
    have member : zwnj ∈ dropZwnj (g ++ zwnj :: h) := by simp [here]
    simp [dropZwnj] at member

theorem touching_listed {p : Str} (word : touching isBlock a.reverse = []) (hp : p ∈ prefixes) :
    touching isBlock (a ++ p).reverse = p := by
  rw [touching_append (isBlock_of_mem_prefixes hp), word, List.nil_append]

theorem GapsKept.halfSpaced (kept : GapsKept t) : HalfSpaced t := by
  refine ⟨?_, ?_, ?_, ?_⟩
  · rintro a b rfl
    exact kept.between
  · intro a p g b split word hp joint next
    exact kept.half split (touching_listed word hp) rfl ⟨prefix_ne_nil hp, next, .inr (.inr ⟨joint, .inl hp⟩)⟩
  · intro a p s b split word hp hs ended
    have right := takeWhile_word (isBlock_of_mem_stems hs) ended
    have half : IsHalfSpace p [] s := ⟨prefix_ne_nil hp, stem_ne_nil hs, .inl ⟨rfl, hp, hs⟩⟩
    exact absurd (kept.half (b := s ++ b) split (touching_listed word hp) right half) (by simp)
  · intro a g s b split long joint hs ended
    have right := takeWhile_word (isBlock_of_mem_suffixes hs) ended
    have word : touching isBlock a.reverse ≠ [] := List.length_pos_iff.mp (by omega)
    exact kept.half split rfl right ⟨word, suffix_ne_nil hs, .inr (.inr ⟨joint, .inr ⟨long, hs⟩⟩)⟩

/-- The only half-space a gap has is the whole gap. -/
theorem HalfSpaced.alone (spaced : HalfSpaced t) (maximal : Maximal isSep a g b t) (member : zwnj ∈ g) :
    g = [zwnj] ∧ touching isBlock a.reverse ≠ [] ∧ b.takeWhile isBlock ≠ [] := by
  obtain ⟨h, k, rfl⟩ := List.append_of_mem member
  have apart : ∀ {c : Char}, c ∈ h ++ zwnj :: k → isBlock c = false :=
    fun inGap => isBlock_of_isSep _ (maximal.gap _ inGap)
  obtain ⟨left, right⟩ := spaced.between (a ++ h) (k ++ b) (by simp [maximal.split])
  have front : h = [] := by
    by_contra filled
    rw [List.reverse_append] at left
    exact left (touching_gap isSep isBlock isBlock_of_isSep (fun c inFront => maximal.gap c (by simp [inFront])) filled _)
  have back : k = [] := by
    cases k with
    | nil => rfl
    | cons c k => exact absurd (by simp [apart (c := c) (by simp)]) right
  subst front back
  exact ⟨rfl, by simpa using left, right⟩

theorem HalfSpaced.kept (spaced : HalfSpaced t) : GapsKept t := by
  intro a g b maximal
  have split := maximal.split
  obtain ⟨a', before, started⟩ := @touching_split _ isBlock a
  have after := (List.takeWhile_append_dropWhile (p := isBlock) (l := b)).symm
  have ended := @takeWhile_dropWhile _ isBlock b
  unfold halfSpaceGap
  split
  next half =>
    obtain ⟨left, right, ⟨rfl, hp, hs⟩ | zwnjs | ⟨joint, hp | ⟨long, hs⟩⟩⟩ := half
    · rw [before, after, List.nil_append] at split
      exact absurd ended (spaced.attached _ _ _ _ split started hp hs)
    · obtain ⟨c, member⟩ := List.exists_mem_of_ne_nil g zwnjs.1
      exact (spaced.alone maximal (zwnjs.2 c member ▸ member)).1.symm
    · rw [before] at split
      exact (spaced.spaced _ _ _ _ split started hp joint right).symm
    · rw [after] at split
      exact (spaced.suffix _ _ _ _ split long joint hs ended).symm
  next other =>
    rw [dropZwnj, List.filter_eq_self]
    intro c member
    rw [bne_iff_ne, ne_eq]
    rintro rfl
    obtain ⟨rfl, left, right⟩ := spaced.alone maximal member
    exact other ⟨left, right, .inr (.inl allZwnj_single)⟩

end Rules

/-- The half-space steps change a text exactly when one of their rules has something to do in it. -/
theorem halfSpaceSteps_eq_iff (t : Str) : halfSpaceSteps t = t ↔ HalfSpaced t := by
  rw [halfSpaceSteps_eq_gaps]
  exact ⟨GapsKept.halfSpaced, HalfSpaced.kept⟩

/-- What the half-space steps make of a final gap. -/
def againGap : Pass Char := fun l g r => if finalGap l g r = [' '] ∧ WordRule l r then [zwnj] else finalGap l g r

theorem zwnj_of_cutBreaks {g : Str} (member : zwnj ∈ cutBreaks g) : zwnj ∈ g := by
  rcases mem_squeeze (by decide : 0 < 3) member with put | old
  · exact absurd put (by decide)
  · exact old

theorem finalGap_of_zwnj {l g r : Str} (member : zwnj ∈ finalGap l g r) : finalGap l g r = [zwnj] :=
  finalGap_of_half (half_of_zwnj member)

theorem again_agrees (l g r l₂ r₂ : Str) (left : LeftAfter l (through g r) l₂)
    (right : RightAfter (through g l) r r₂) : halfSpaceGap l₂ (finalGap l g r) r₂ = againGap l g r := by
  have second := second_agrees l g r l₂ r₂ left right
  unfold secondGap at second
  unfold againGap
  by_cases missed : finalGap l g r = [' '] ∧ WordRule l r
  · rw [if_pos missed] at second ⊢
    exact if_pos (half_of_zwnj (second ▸ List.mem_singleton_self zwnj))
  · rw [if_neg missed] at second ⊢
    by_cases half : IsHalfSpace l₂ (finalGap l g r) r₂
    · rw [finalGap_of_half half] at second
      rw [halfSpaceGap, if_pos half]
      exact (finalGap_of_zwnj (zwnj_of_cutBreaks (second ▸ List.mem_singleton_self zwnj))).symm
    · rw [halfSpaceGap, if_neg half, dropZwnj, List.filter_eq_self]
      intro c member
      rw [bne_iff_ne, ne_eq]
      rintro rfl
      -- A half-space in the gap would be the whole gap, and stay there.
      rw [finalGap_of_zwnj member] at half second
      exact half (half_of_zwnj (second ▸ cutBreaks_zwnj ▸ List.mem_singleton_self zwnj))

theorem again_eq_iff {l g r : Str} :
    againGap l g r = finalGap l g r ↔ (WordRule l r → '\n' ∉ g → ∀ c ∈ g, isSpaceOrZwnj c = true) := by
  rw [← no_space_iff]
  unfold againGap
  split
  next missed =>
    rw [missed.1]
    exact iff_of_false (by decide) (fun none => none ⟨rfl, missed.2⟩)
  next none => exact iff_of_true rfl none

theorem halfSpaceGap_at_end {l r : Str} (atEnd : l = [] ∨ r = []) : halfSpaceGap l [] r = [] :=
  if_neg fun half => atEnd.elim half.1 half.2.1

theorem halfSpaceSteps_again_iff {g : Str} {x : Char} {cs : List (Cell Char)} (proper : Proper isSep ((g, x) :: cs)) :
    halfSpaceSteps (x :: render (mapCells isBlock finalGap (startRun x) cs) []) =
        x :: render (mapCells isBlock finalGap (startRun x) cs) [] ↔
      EveryGap isBlock (fun l g r => WordRule l r → '\n' ∉ g → ∀ c ∈ g, isSpaceOrZwnj c = true) (startRun x) cs := by
  have whole := final_proper proper
  have inner := whole.tail isSep
  have again := @halfSpaceSteps_render _ [] whole (by simp [IsGap])
  have cells := (mapCells_after finalGap_splits again_agrees cs (.inl rfl : LeftAfter (startRun x) _ (startRun x))).1
  have mapped := mapCells_proper isSep isBlock halfSpaceGap_gap inner (startRun x)
  rw [cells] at mapped
  rw [render, List.nil_append] at again
  rw [again, rewrite_cons, rewrite, halfSpaceGap_at_end (.inl rfl), halfSpaceGap_at_end (.inr rfl), List.nil_append,
    List.cons.injEq, and_iff_right rfl, show leftStep isBlock [] [] x = startRun x from rfl, cells,
    render_eq_iff isSep mapped inner, mapCells_eq_iff]
  exact EveryGap.congr (proper.tail isSep) (fun l g r _ => again_eq_iff) (startRun x)

/-- The rules have nothing to do in a normalised text just if no other blank than a space stood where
    they asked for a half-space. -/
theorem normalize_halfSpaced_iff (nfkc : Str → Str) {f : Str} (stable : characterSteps nfkc f = f) :
    HalfSpaced (normalize nfkc f) ↔
      ∀ a g b, Interior isSep a g b f → WordRule (touching isBlock a.reverse) (b.takeWhile isBlock) →
        '\n' ∉ g → ∀ c ∈ g, isSpaceOrZwnj c = true := by
  rw [← halfSpaceSteps_eq_iff, normalize_stable nfkc stable]
  induction f using text_cases isSep with
  | gap f gap =>
      rw [gapSteps_blank gap]
      exact iff_of_true (by decide) (fun a g b interior => absurd interior (not_interior gap))
  | cells g x cs last proper gapEnd =>
      rw [gapSteps_render proper gapEnd, halfSpaceSteps_again_iff proper, ← startRun_gap g x]
      exact everyGap_iff_interior isBlock_of_isSep proper gapEnd

theorem no_rule_left (nfkc : Str → Str) {f : Str} (stable : characterSteps nfkc f = f)
    (plain : ∀ c ∈ f, isSpace c = true → c = ' ' ∨ c = '\n') :
    HalfSpaced (normalize nfkc f) ∧ halfSpaceSteps (normalize nfkc f) = normalize nfkc f := by
  have settled : HalfSpaced (normalize nfkc f) := by
    refine (normalize_halfSpaced_iff nfkc stable).mpr ?_
    intro a g b interior _ noBreak c member
    have separator := interior.gap c member
    rw [isSep, Bool.or_eq_true] at separator
    rcases separator with space | half
    · have inText : c ∈ f := by simp [interior.split, member]
      rcases plain c inText space with rfl | rfl
      · decide
      · exact absurd member noBreak
    · simp [isSpaceOrZwnj, half]
  exact ⟨settled, (halfSpaceSteps_eq_iff _).mpr settled⟩

theorem no_rule_left_verbs :
    HalfSpaced (normalize (fun t => t) "می شود و نمیشود\nکتاب ها".toList) ∧
      halfSpaceSteps (normalize (fun t => t) "می شود و نمیشود\nکتاب ها".toList) =
        normalize (fun t => t) "می شود و نمیشود\nکتاب ها".toList :=
  no_rule_left (fun t => t) (by decide +kernel) (by decide +kernel)

end Nipoto.Normalize
