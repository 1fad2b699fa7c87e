import Nipoto.Retrieval.NormalForm

/-! # The gap steps on their own output

Run a second time, the gap steps can still do two things: put a half-space where
the first run folded a tab or another blank to a space, and cut line breaks that
stood apart in the source and are adjacent now.
-/

namespace Nipoto.Normalize

open Text Text.Regex Text.Gaps

/-- The words on both sides call for a half-space between them. -/
def WordRule (l r : Str) : Prop := r ≠ [] ∧ (l ∈ prefixes ∨ (2 ≤ l.length ∧ r ∈ suffixes))

instance (l r : Str) : Decidable (WordRule l r) := inferInstanceAs (Decidable (_ ∧ _))

def secondGap : Pass Char := fun l g r =>
  if finalGap l g r = [' '] ∧ WordRule l r then [zwnj] else cutBreaks (finalGap l g r)

theorem dropZwnj_eq_nil {g : Str} : dropZwnj g = [] ↔ ∀ c ∈ g, c = zwnj := by
  simp [dropZwnj, List.filter_eq_nil_iff]

theorem tidyGap_eq_nil {g : Str} : tidyGap g = [] ↔ g = [] := by
  unfold tidyGap blankGap
  split
  · simp_all
  · split
    · rename_i member
      refine iff_of_false (keptBreaks_ne_nil member) ?_
      rintro rfl
      simp at member
    · split <;> simp_all

theorem keptBreaks_replicate (g : Str) : ∃ n, keptBreaks g = List.replicate n '\n' :=
  ⟨(keptBreaks g).length, List.eq_replicate_of_mem fun c member => by
    simpa using (List.mem_filter.mp member).2⟩

theorem tidyGap_dropZwnj (g : Str) : tidyGap (dropZwnj g) = blankGap (dropZwnj g) := by
  rw [tidyGap, if_neg]
  intro single
  have member : zwnj ∈ dropZwnj g := single ▸ List.mem_singleton_self zwnj
  simpa using (List.mem_filter.mp member).2

/-- Unless it is a half-space, a final gap is empty, a space or a few line breaks. -/
theorem blankGap_shape (g : Str) :
    blankGap g = [] ∨ blankGap g = [' '] ∨ ∃ n, blankGap g = List.replicate (n + 1) '\n' := by
  unfold blankGap
  split
  · rename_i member
    obtain ⟨n, kept⟩ := keptBreaks_replicate g
    cases n with
    | zero => exact absurd kept (keptBreaks_ne_nil member)
    | succ n => exact .inr (.inr ⟨n, kept⟩)
  · split
    · exact .inl rfl
    · exact .inr (.inl rfl)

theorem finalGap_of_half {l g r : Str} (half : IsHalfSpace l g r) : finalGap l g r = [zwnj] := by
  rw [finalGap, halfSpaceGap, if_pos half]
  rfl

theorem finalGap_of_blank {l g r : Str} (other : ¬ IsHalfSpace l g r) :
    finalGap l g r = blankGap (dropZwnj g) := by
  rw [finalGap, halfSpaceGap, if_neg other, tidyGap_dropZwnj]

theorem finalGap_splits : SplitsAttached finalGap := by
  intro l g r left right
  by_cases half : IsHalfSpace l g r
  · rw [finalGap_of_half half]
    refine iff_of_false (by simp) ?_
    rintro ⟨rfl, quiet⟩
    obtain ⟨_, _, attached | pure | joint⟩ := half
    · exact quiet attached.2
    · exact pure.1 rfl
    · exact joint.1.1 rfl
  · rw [finalGap, halfSpaceGap, if_neg half, tidyGap_eq_nil, dropZwnj_eq_nil]
    constructor
    · intro pure
      have empty : g = [] := by
        by_contra filled
        exact half ⟨left, right, .inr (.inl ⟨filled, pure⟩)⟩
      exact ⟨empty, fun fires => half ⟨left, right, .inl ⟨empty, fires⟩⟩⟩
    · rintro ⟨rfl, _⟩
      simp

theorem WordRule.left {l r : Str} (rule : WordRule l r) : l ≠ [] := by
  rcases rule.2 with hp | ⟨long, _⟩
  · exact prefix_ne_nil hp
  · exact List.length_pos_iff.mp (by omega)

theorem half_iff_rule {l r : Str} : IsHalfSpace l [' '] r ↔ WordRule l r := by
  by_cases left : l = []
  · exact iff_of_false (fun half => half.1 left) (fun rule => rule.left left)
  · have space : ¬ AllZwnj [' '] := by decide
    have joint : IsJoint [' '] := by decide
    simp [IsHalfSpace, WordRule, left, space, joint]

/-- Where the words call for a half-space, the gap decides. -/
theorem half_of_rule {l g r : Str} (rule : WordRule l r) (some : g ≠ []) : IsHalfSpace l g r ↔ IsJoint g := by
  constructor
  · rintro ⟨-, -, attached | zwnjs | joint⟩
    · exact absurd attached.1 some
    · exact zwnjs.joint
    · exact joint.1
  · exact fun joint => ⟨rule.left, rule.1, .inr (.inr ⟨joint, rule.2⟩)⟩

/-- Where they do not, only an attached verb or half-spaces alone make one. -/
theorem half_without_rule {l r : Str} (other : ¬ WordRule l r) (g : Str) :
    IsHalfSpace l g r ↔ l ≠ [] ∧ r ≠ [] ∧ ((g = [] ∧ l ∈ prefixes ∧ r ∈ verbStems) ∨ AllZwnj g) := by
  constructor
  · rintro ⟨left, right, attached | zwnjs | joint⟩
    · exact ⟨left, right, .inl attached⟩
    · exact ⟨left, right, .inr zwnjs⟩
    · exact absurd ⟨right, joint.2⟩ other
  · rintro ⟨left, right, attached | zwnjs⟩
    · exact ⟨left, right, .inl attached⟩
    · exact ⟨left, right, .inr (.inl zwnjs)⟩

theorem LeftAfter.prefix_iff {l l₂ : Str} (h : LeftAfter l [] l₂) : l₂ ∈ prefixes ↔ l ∈ prefixes := by
  rcases h with rfl | ⟨p, hp, rfl, nonempty, stem⟩
  · rfl
  · rw [List.append_nil] at stem
    refine iff_of_false (fun listed => ?_) (fun listed => nonempty (prefix_complete hp listed))
    exact prefixEnd_begins_no_stem stem (prefix_mem_ends listed) (List.prefix_refl l₂)

theorem rule_after {l r l₂ r₂ : Str} (left : LeftAfter l [] l₂) (right : RightAfter [] r r₂) :
    WordRule l₂ r₂ ↔ WordRule l r := by
  unfold WordRule
  rw [left.prefix_iff, left.long_iff, right.suffix_iff, ne_eq, right.nil_iff]

/-- Where the attached rule did not fire it does not fire afterwards either. -/
theorem attached_after {l r l₂ r₂ : Str} (left : LeftAfter l r l₂) (right : RightAfter l r r₂)
    (quiet : ¬ (l ∈ prefixes ∧ r ∈ verbStems)) : ¬ (l₂ ∈ prefixes ∧ r₂ ∈ verbStems) := by
  rintro ⟨hp, hs⟩
  rcases left with rfl | ⟨p, _, rfl, _, stem⟩
  · rcases right with rfl | ⟨s, _, nonempty, listed, _⟩
    · exact quiet ⟨hp, hs⟩
    · exact nonempty (prefix_complete hp listed)
  · exact prefixEnd_begins_no_stem stem (prefix_mem_ends hp) (List.prefix_append l₂ r)

theorem not_half_breaks (l r : Str) (n : Nat) : ¬ IsHalfSpace l (List.replicate (n + 1) '\n') r := by
  have noZwnj : '\n' ≠ zwnj := by decide
  have member : '\n' ∈ List.replicate (n + 1) '\n' := by simp
  rintro ⟨_, _, attached | pure | joint⟩
  · simp at attached
  · exact noZwnj (pure.2 _ member)
  · exact absurd (joint.1.2 _ member) (by decide)

theorem finalGap_breaks (l r : Str) (n : Nat) :
    finalGap l (List.replicate (n + 1) '\n') r = cutBreaks (List.replicate (n + 1) '\n') := by
  have noZwnj : dropZwnj (List.replicate (n + 1) '\n') = List.replicate (n + 1) '\n' := by
    rw [dropZwnj, List.filter_eq_self]
    intro c member
    rw [List.eq_of_mem_replicate member]
    decide
  have only : breaks (cutBreaks (List.replicate (n + 1) '\n')) = cutBreaks (List.replicate (n + 1) '\n') := by
    rw [breaks, List.filter_eq_self]
    intro c member
    rcases mem_squeeze (by decide : 0 < 3) member with put | old
    · simpa using put
    · simp [List.eq_of_mem_replicate old]
  rw [finalGap_of_blank (not_half_breaks l r n), noZwnj, blankGap, if_pos (by simp), keptBreaks, only]

/-- Where nothing is left of a gap that was no half-space, none is put the second time. -/
theorem not_half_nil_after {l g r l₂ r₂ : Str} (left : LeftAfter l (through g r) l₂)
    (right : RightAfter (through g l) r r₂) (other : ¬ IsHalfSpace l g r) (zwnjs : ∀ c ∈ g, c = zwnj) :
    ¬ IsHalfSpace l₂ [] r₂ := by
  rintro ⟨leftWord, rightWord, attached | none | joint⟩
  · have word : l ≠ [] := left.nil_iff.not.mp leftWord
    have next : r ≠ [] := right.nil_iff.not.mp rightWord
    cases g with
    | nil => exact attached_after left right (fun fires => other ⟨word, next, .inl ⟨rfl, fires⟩⟩) attached.2
    | cons c g => exact other ⟨word, next, .inr (.inl ⟨by simp, zwnjs⟩)⟩
  · exact none.1 rfl
  · exact joint.1.1 rfl

theorem second_agrees (l g r l₂ r₂ : Str) (left : LeftAfter l (through g r) l₂)
    (right : RightAfter (through g l) r r₂) :
    finalGap l₂ (finalGap l g r) r₂ = secondGap l g r := by
  by_cases half : IsHalfSpace l g r
  · have again : IsHalfSpace l₂ [zwnj] r₂ :=
      ⟨left.nil_iff.not.mpr half.1, right.nil_iff.not.mpr half.2.1, .inr (.inl allZwnj_single)⟩
    have other : ¬ ([zwnj] = [' '] ∧ WordRule l r) := fun both => absurd both.1 (by decide)
    rw [secondGap, finalGap_of_half half, finalGap_of_half again, if_neg other]
    exact cutBreaks_zwnj.symm
  · rw [secondGap, finalGap_of_blank half]
    rcases blankGap_shape (dropZwnj g) with empty | space | ⟨n, breaks⟩
    · rw [empty, if_neg (by simp)]
      have pure : ∀ c ∈ g, c = zwnj := by
        have same := tidyGap_dropZwnj g
        rw [empty, tidyGap_eq_nil] at same
        exact dropZwnj_eq_nil.mp same
      rw [finalGap_of_blank (not_half_nil_after left right half pure)]
      rfl
    · have apart : g ≠ [] := by
        rintro rfl
        exact absurd space (by decide)
      have cut : ∀ run, through g run = [] := by simp [through, apart]
      rw [cut] at left right
      rw [space]
      by_cases rule : WordRule l r
      · rw [if_pos ⟨rfl, rule⟩]
        exact finalGap_of_half (half_iff_rule.mpr ((rule_after left right).mpr rule))
      · rw [if_neg (fun both => rule both.2),
          finalGap_of_blank (fun again => rule ((rule_after left right).mp (half_iff_rule.mp again)))]
        rfl
    · rw [breaks, if_neg, finalGap_breaks]
      rintro ⟨single, _⟩
      have member : ' ' ∈ List.replicate (n + 1) '\n' := single ▸ List.mem_singleton_self ' '
      exact absurd (List.eq_of_mem_replicate member) (by decide)

/-- The first run leaves no space where a half-space is called for, and no line
    breaks that a second run would cut. -/
def SettledGap (l g r : Str) : Prop :=
  (WordRule l r → '\n' ∉ g → ∀ c ∈ g, isSpaceOrZwnj c = true) ∧ (keptBreaks (dropZwnj g)).length ≤ 2

theorem cutBreaks_replicate (n : Nat) :
    cutBreaks (List.replicate n '\n') = if 3 ≤ n then ['\n', '\n'] else List.replicate n '\n' := by
  have run := @cutBreaks_run n [] (by simp)
  have none : cutBreaks [] = [] := rfl
  rwa [List.append_nil, none, List.append_nil] at run

theorem cutBreaks_final_iff (l g r : Str) :
    cutBreaks (finalGap l g r) = finalGap l g r ↔ (keptBreaks (dropZwnj g)).length ≤ 2 := by
  by_cases half : IsHalfSpace l g r
  · have noBreak : ∀ c ∈ dropZwnj g, c ≠ '\n' := by
      rintro c member rfl
      have inGap := List.mem_of_mem_filter member
      obtain ⟨_, _, attached | pure | joint⟩ := half
      · simp [attached.1] at inGap
      · exact absurd (pure.2 _ inGap) (by decide)
      · exact absurd (joint.1.2 _ inGap) (by decide)
    rw [finalGap_of_half half, keptBreaks_none noBreak]
    exact iff_of_true cutBreaks_zwnj (by simp)
  · rw [finalGap_of_blank half, blankGap]
    by_cases member : '\n' ∈ dropZwnj g
    · obtain ⟨n, kept⟩ := keptBreaks_replicate (dropZwnj g)
      rw [if_pos member, kept, cutBreaks_replicate, List.length_replicate]
      split
      · refine iff_of_false (fun same => ?_) (by omega)
        have size := congrArg List.length same
        simp only [List.length_cons, List.length_nil, List.length_replicate] at size
        omega
      · exact iff_of_true rfl (by omega)
    · have noBreak : ∀ c ∈ dropZwnj g, c ≠ '\n' := by
        rintro c inGap rfl
        exact member inGap
      rw [if_neg member, keptBreaks_none noBreak]
      refine iff_of_true ?_ (by simp)
      split <;> rfl

theorem break_mem_dropZwnj {g : Str} : '\n' ∈ dropZwnj g ↔ '\n' ∈ g := by
  have noZwnj : '\n' ≠ zwnj := by decide
  simp [dropZwnj, noZwnj]

theorem blankGap_eq_space {g : Str} : blankGap g = [' '] ↔ '\n' ∉ g ∧ g ≠ [] := by
  unfold blankGap
  split
  next member =>
    refine iff_of_false (fun space => ?_) (fun both => both.1 member)
    obtain ⟨n, breaks⟩ := keptBreaks_replicate g
    have atBreak : ' ' ∈ List.replicate n '\n' := breaks ▸ space ▸ List.mem_singleton_self ' '
    exact absurd (List.eq_of_mem_replicate atBreak) (by decide)
  next noBreak =>
    split
    next nothing => simp [nothing]
    next some => simp [noBreak, some]

theorem finalGap_space_iff {l g r : Str} (rule : WordRule l r) :
    finalGap l g r = [' '] ↔ '\n' ∉ g ∧ ∃ c ∈ g, isSpaceOrZwnj c = false := by
  by_cases half : IsHalfSpace l g r
  · rw [finalGap_of_half half]
    refine iff_of_false (by decide) ?_
    rintro ⟨-, c, member, outside⟩
    have joint := (half_of_rule rule (List.ne_nil_of_mem member)).mp half
    rw [joint.2 c member] at outside
    exact absurd outside (by simp)
  · rw [finalGap_of_blank half, blankGap_eq_space, break_mem_dropZwnj]
    refine and_congr_right fun _ => ?_
    constructor
    · intro kept
      have some : g ≠ [] := by
        rintro rfl
        exact kept rfl
      by_contra none
      refine half ((half_of_rule rule some).mpr ⟨some, fun c member => ?_⟩)
      by_contra outside
      exact none ⟨c, member, by simpa using outside⟩
    · rintro ⟨c, member, outside⟩ gone
      rw [dropZwnj_eq_nil.mp gone c member] at outside
      exact absurd outside (by decide)

/-- Where the words call for a half-space, spaces and half-spaces leave no space there. -/
theorem no_space_iff {l g r : Str} :
    ¬ (finalGap l g r = [' '] ∧ WordRule l r) ↔
      (WordRule l r → '\n' ∉ g → ∀ c ∈ g, isSpaceOrZwnj c = true) := by
  constructor
  · intro none rule noBreak c member
    by_contra outside
    exact none ⟨(finalGap_space_iff rule).mpr ⟨noBreak, c, member, by simpa using outside⟩, rule⟩
  · rintro joint ⟨space, rule⟩
    obtain ⟨noBreak, c, member, outside⟩ := (finalGap_space_iff rule).mp space
    rw [joint rule noBreak c member] at outside
    exact absurd outside (by simp)

theorem second_eq_iff {l g r : Str} : secondGap l g r = finalGap l g r ↔ SettledGap l g r := by
  unfold SettledGap secondGap
  rw [← cutBreaks_final_iff l g r, ← no_space_iff]
  split
  next missed =>
    rw [missed.1]
    exact iff_of_false (by decide) (fun both => both.1 ⟨rfl, missed.2⟩)
  next none => exact (and_iff_right none).symm

end Nipoto.Normalize
