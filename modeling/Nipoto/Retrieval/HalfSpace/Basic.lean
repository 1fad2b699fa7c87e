import Nipoto.Retrieval.Words
import Nipoto.Text.Scan
import Nipoto.Text.Squeeze

/-! # Words, gaps and the parts of the half-space patterns

A separator is white space or ZWNJ, and a word is a run of U+0600-U+06FF. Each of
the five substitutions of the half-space steps only changes gaps, and what it
does to one gap depends on the words that touch it.
-/

namespace Nipoto.Normalize

open Text Text.Regex Text.Gaps

def isSep (c : Char) : Bool := isSpace c || c == zwnj

theorem isBlock_of_isSep (c : Char) (h : isSep c = true) : isBlock c = false := by
  rw [isSep, Bool.or_eq_true, beq_iff_eq] at h
  rcases h with space | rfl
  · simp only [isSpace, Bool.or_eq_true, Bool.and_eq_true, decide_eq_true_eq, beq_iff_eq] at space
    simp only [isBlock, Bool.and_eq_false_iff, decide_eq_false_iff_not]
    omega
  · decide

theorem isSep_of_isBlock {c : Char} (h : isBlock c = true) : isSep c = false := by
  by_contra separator
  rw [isBlock_of_isSep c (by simpa using separator)] at h
  exact absurd h (by simp)

theorem isSep_of_isSpaceOrZwnj {c : Char} (h : isSpaceOrZwnj c = true) : isSep c = true := by
  rw [isSpaceOrZwnj, Bool.or_eq_true, beq_iff_eq, beq_iff_eq] at h
  rcases h with rfl | rfl <;> decide

theorem matches_miGroup {c d : Cursor} :
    miGroup.Matches c d ↔ ∃ p ∈ prefixes, ∃ r, c.rest = p ++ r ∧
      d = { before := p.reverse ++ c.before, rest := r, groups := (1, p) :: c.groups } := by
  obtain ⟨before, rest, groups⟩ := c
  constructor
  · rintro ⟨_, ⟨e, optional, e₂, ⟨x, r, h, inside, rfl⟩, e₃, ⟨y, r', h', inside', rfl⟩, rfl⟩, rfl⟩
    obtain rfl := beq_iff_eq.mp inside
    obtain rfl := beq_iff_eq.mp inside'
    simp only at h'
    subst h'
    rcases matches_optional.mp optional with rfl | ⟨z, r, h', inside, rfl⟩
    · simp only at h
      subst h
      refine ⟨"می".toList, by simp [prefixes], r', rfl, ?_⟩
      rw [readUpTo_append (w := "می".toList) rfl]
      rfl
    · obtain rfl := beq_iff_eq.mp inside
      simp only at h h'
      subst h h'
      refine ⟨"نمی".toList, by simp [prefixes], r', rfl, ?_⟩
      rw [readUpTo_append (w := "نمی".toList) rfl]
      rfl
  · rintro ⟨p, member, r, h, rfl⟩
    simp only at h
    subst h
    simp only [prefixes, List.mem_cons, List.not_mem_nil, or_false] at member
    rcases member with rfl | rfl
    · refine ⟨⟨'ی' :: 'م' :: before, r, groups⟩, ⟨_, matches_optional.mpr (.inl rfl), _,
        ⟨'م', _, rfl, rfl, rfl⟩, _, ⟨'ی', r, rfl, rfl, rfl⟩, rfl⟩, ?_⟩
      rw [readUpTo_append (w := "می".toList) rfl]
      rfl
    · refine ⟨⟨'ی' :: 'م' :: 'ن' :: before, r, groups⟩,
        ⟨_, matches_optional.mpr (.inr ⟨'ن', _, rfl, rfl, rfl⟩), _,
        ⟨'م', _, rfl, rfl, rfl⟩, _, ⟨'ی', r, rfl, rfl, rfl⟩, rfl⟩, ?_⟩
      rw [readUpTo_append (w := "نمی".toList) rfl]
      rfl

/-- A lookbehind counts the word characters that touch the position. -/
theorem seesBehind_iff {width : Nat} {c : Cursor} :
    seesBehind width isBlock c = true ↔ width ≤ (touching isBlock c.before).length := by
  obtain ⟨before, rest, groups⟩ := c
  simp only [seesBehind, touching, Bool.and_eq_true, decide_eq_true_eq, List.all_eq_true,
    List.length_reverse]
  induction before generalizing width with
  | nil => simp
  | cons x before ih =>
      cases width with
      | zero => simp
      | succ width =>
          cases inWord : isBlock x with
          | false => simp [inWord]
          | true => simpa [inWord] using @ih width

theorem no_word_behind {c : Cursor} :
    seesBehind 1 isBlock c = false ↔ touching isBlock c.before = [] := by
  rw [← Bool.not_eq_true, seesBehind_iff]
  cases touching isBlock c.before <;> simp

theorem seesAhead_iff {c : Cursor} : seesAhead isBlock c = true ↔ c.rest.takeWhile isBlock ≠ [] := by
  obtain ⟨before, rest, groups⟩ := c
  cases rest with
  | nil => simp [seesAhead]
  | cons x rest => cases inWord : isBlock x <;> simp [seesAhead, inWord]

theorem no_word_ahead {c : Cursor} :
    seesAhead isBlock c = false ↔ c.rest.takeWhile isBlock = [] := by
  rw [← Bool.not_eq_true, seesAhead_iff, not_not]

/-- What the rules may turn into a half-space: spaces and ZWNJs, at least one. -/
def IsJoint (g : Str) : Prop := g ≠ [] ∧ ∀ x ∈ g, isSpaceOrZwnj x = true

instance (g : Str) : Decidable (IsJoint g) := inferInstanceAs (Decidable (_ ∧ _))

theorem IsJoint.gap {g : Str} (h : IsJoint g) : IsGap isSep g :=
  fun x member => isSep_of_isSpaceOrZwnj (h.2 x member)

end Nipoto.Normalize
