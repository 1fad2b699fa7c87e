import Nipoto.Retrieval.Variants

/-! # Half-space spelling variants

A prefix or a suffix may be written together with its word, with a half-space or
with spaces. These spellings meet in one normal form only where the surrounding
text does not touch them with a block character: to the rules, Persian
punctuation continues a word.
-/

namespace Nipoto.Normalize

open Text Text.Regex Text.Gaps

inductive Kind where
  | none
  /-- ZWNJs only. -/
  | half
  | space
  deriving DecidableEq

/-- How a separator spelled spaces and ZWNJs is spelled. -/
def kind (s : Str) : Kind := if s = [] then .none else if ∀ c ∈ s, c = zwnj then .half else .space

def EndsInBlock (u : Str) : Prop := ∃ c ∈ u.getLast?, isBlock c = true

def StartsInBlock (v : Str) : Prop := ∃ c ∈ v.head?, isBlock c = true

instance (u : Str) : Decidable (EndsInBlock u) :=
  decidable_of_iff (u.getLast?.any isBlock = true) (by simp [EndsInBlock, Option.any_eq_true])

instance (v : Str) : Decidable (StartsInBlock v) :=
  decidable_of_iff (v.head?.any isBlock = true) (by simp [StartsInBlock, Option.any_eq_true])

section Surroundings

variable {u v : Str}

theorem touching_iff : touching isBlock u.reverse = [] ↔ ¬ EndsInBlock u := by
  rw [EndsInBlock, ← List.head?_reverse]
  cases u.reverse with
  | nil => simp
  | cons c t => cases inWord : isBlock c <;> simp [touching, inWord]

theorem takeWhile_iff : v.takeWhile isBlock = [] ↔ ¬ StartsInBlock v := by
  rw [StartsInBlock]
  cases v with
  | nil => simp
  | cons c t => cases inWord : isBlock c <;> simp [inWord]

/-- A word that the text on the left continues holds a foreign character. -/
theorem touching_foreign (uEnd : ∀ c ∈ u.getLast?, c ∉ persianLetters)
    (touches : touching isBlock u.reverse ≠ []) :
    ∃ c ∈ touching isBlock u.reverse, c ∉ persianLetters := by
  rw [← List.head?_reverse] at uEnd
  cases split : u.reverse with
  | nil => simp [split] at touches
  | cons c t =>
      rw [split] at uEnd touches
      have inWord : isBlock c = true := by
        by_contra outside
        simp [touching, outside] at touches
      exact ⟨c, by simp [touching, inWord], uEnd c rfl⟩

theorem takeWhile_foreign (vStart : ∀ c ∈ v.head?, c ∉ persianLetters)
    (touches : v.takeWhile isBlock ≠ []) : ∃ c ∈ v.takeWhile isBlock, c ∉ persianLetters := by
  cases v with
  | nil => simp at touches
  | cons c t =>
      have inWord : isBlock c = true := by
        by_contra outside
        simp [outside] at touches
      exact ⟨c, by simp [inWord], vStart c rfl⟩

/-- A listed word after some text is still listed only if the text adds nothing. -/
theorem mem_prefixes_after (uEnd : ∀ c ∈ u.getLast?, c ∉ persianLetters) (w : Str) :
    touching isBlock u.reverse ++ w ∈ prefixes ↔ touching isBlock u.reverse = [] ∧ w ∈ prefixes := by
  constructor
  · intro listed
    by_cases alone : touching isBlock u.reverse = []
    · rw [alone, List.nil_append] at listed
      exact ⟨alone, listed⟩
    · obtain ⟨c, member, foreign⟩ := touching_foreign uEnd alone
      exact absurd listed (not_listed (List.mem_append_left w member) foreign).1
  · rintro ⟨alone, listed⟩
    rwa [alone, List.nil_append]

theorem mem_suffixes_before (vStart : ∀ c ∈ v.head?, c ∉ persianLetters) {f : Str} (hf : f ∈ suffixes) :
    f ++ v.takeWhile isBlock ∈ suffixes ↔ v.takeWhile isBlock = [] := by
  constructor
  · intro listed
    by_contra touches
    obtain ⟨c, member, foreign⟩ := takeWhile_foreign vStart touches
    exact (not_listed (List.mem_append_right f member) foreign).2.1 listed
  · intro alone
    rwa [alone, List.append_nil]

theorem mem_stems_before (vStart : ∀ c ∈ v.head?, c ∉ persianLetters) {w : Str} (hw : w ∈ verbStems) :
    w ++ v.takeWhile isBlock ∈ verbStems ↔ v.takeWhile isBlock = [] := by
  constructor
  · intro listed
    by_contra touches
    obtain ⟨c, member, foreign⟩ := takeWhile_foreign vStart touches
    exact (not_listed (List.mem_append_right w member) foreign).2.2 listed
  · intro alone
    rwa [alone, List.append_nil]

/-- Nothing that ends with a prefix, or goes on after it, is a suffix or a stem. -/
theorem prefix_end_not_listed (uEnd : ∀ c ∈ u.getLast?, c ∉ persianLetters) {p z : Str}
    (hp : p ∈ prefixes) (nonempty : z ≠ []) (ending : z <:+ u ++ p) (rest : Str) :
    z ++ rest ∉ suffixes ∧ z ++ rest ∉ verbStems := by
  obtain ⟨t, split⟩ := ending
  rcases List.append_eq_append_iff.mp split with ⟨k, rfl, rfl⟩ | ⟨k, rfl, rfl⟩
  · cases k using List.reverseRecOn with
    | nil =>
        have listed := prefix_mem_ends hp
        rw [List.nil_append]
        exact ⟨fun suffix => prefixEnd_begins_no_suffix p listed _ suffix (List.prefix_append p rest),
          fun stem => prefixEnd_begins_no_stem stem listed (List.prefix_append p rest)⟩
    | append_singleton k c =>
        have foreign : c ∉ persianLetters := uEnd c (by simp [← List.append_assoc])
        exact (not_listed (by simp) foreign).2
  · have listed := mem_prefixEnds hp nonempty (List.suffix_append k z)
    exact ⟨fun suffix => prefixEnd_begins_no_suffix z listed _ suffix (List.prefix_append z rest),
      fun stem => prefixEnd_begins_no_stem stem listed (List.prefix_append z rest)⟩

end Surroundings

theorem tidyGap_spaces {s : Str} (spelled : ∀ c ∈ s, isSpaceOrZwnj c = true) (space : ¬ ∀ c ∈ s, c = zwnj) :
    tidyGap (dropZwnj s) = [' '] := by
  have only : ∀ c ∈ dropZwnj s, c = ' ' := by
    intro c member
    obtain ⟨inSep, other⟩ := List.mem_filter.mp member
    have either := spelled c inSep
    simp only [isSpaceOrZwnj, Bool.or_eq_true, beq_iff_eq] at either
    simp only [bne_iff_ne, ne_eq] at other
    exact either.resolve_right other
  have filled : dropZwnj s ≠ [] := by
    intro gone
    apply space
    intro c member
    have kept := List.filter_eq_nil_iff.mp gone c member
    simpa using kept
  have noHalf : dropZwnj s ≠ [zwnj] := by
    intro same
    exact absurd (only zwnj (by simp [same])) (by decide)
  have noBreak : '\n' ∉ dropZwnj s := fun member => absurd (only _ member) (by decide)
  rw [tidyGap, if_neg noHalf, blankGap, if_neg noBreak, if_neg filled]

/-- The fate of a separator between two runs, by the way it is spelled. -/
def fate (l r : Str) : Kind → Str
  | .none => if l ∈ prefixes ∧ r ∈ verbStems then [zwnj] else []
  | .half => [zwnj]
  | .space => if l ∈ prefixes ∨ (2 ≤ l.length ∧ r ∈ suffixes) then [zwnj] else [' ']

theorem fate_before_stem {l r : Str} (other : r ∉ suffixes) (k k' : Kind) :
    fate l r k = fate l r k' ↔
      k = k' ∨ (l ∈ prefixes ∧ ((k ≠ .none ∧ k' ≠ .none) ∨ r ∈ verbStems)) := by
  have apart : zwnj ≠ ' ' := by decide
  by_cases hl : l ∈ prefixes <;> by_cases hr : r ∈ verbStems <;> cases k <;> cases k' <;>
    simp [fate, hl, hr, other, apart, apart.symm]

theorem fate_before_suffix {l r : Str} (long : 2 ≤ l.length) {k k' : Kind} (some : k ≠ .none)
    (some' : k' ≠ .none) :
    fate l r k = fate l r k' ↔ k = k' ∨ r ∈ suffixes ∨ l ∈ prefixes := by
  have apart : zwnj ≠ ' ' := by decide
  by_cases hl : l ∈ prefixes <;> by_cases hr : r ∈ suffixes <;> cases k <;> cases k' <;>
    simp_all [fate, apart.symm]

theorem finalGap_separator {l s r : Str} (left : l ≠ []) (right : r ≠ [])
    (spelled : ∀ c ∈ s, isSpaceOrZwnj c = true) : finalGap l s r = fate l r (kind s) := by
  unfold kind
  by_cases empty : s = []
  · subst empty
    have condition : IsHalfSpace l [] r ↔ l ∈ prefixes ∧ r ∈ verbStems := by
      simp [IsHalfSpace, left, right, AllZwnj, IsJoint]
    simp only [if_true, finalGap, halfSpaceGap, condition, fate]
    split <;> rfl
  · rw [if_neg empty]
    by_cases pure : ∀ c ∈ s, c = zwnj
    · rw [if_pos pure, finalGap, halfSpaceGap, if_pos ⟨left, right, .inr (.inl ⟨empty, pure⟩)⟩]
      rfl
    · have joint : IsJoint s := ⟨empty, spelled⟩
      have condition : IsHalfSpace l s r ↔ l ∈ prefixes ∨ (2 ≤ l.length ∧ r ∈ suffixes) := by
        simp [IsHalfSpace, left, right, AllZwnj, empty, pure, joint]
      rw [if_neg pure]
      simp only [finalGap, halfSpaceGap, condition, fate]
      split
      · rfl
      · exact tidyGap_spaces spelled pure

theorem fold_bare {w : Str} (bare : ∀ c ∈ w, c ∈ bareLetters) : w.flatMap foldChar = w := by
  have single : ∀ c ∈ bareLetters, foldChar c = [c] := by decide +kernel
  induction w with
  | nil => rfl
  | cons c w ih =>
      rw [List.flatMap_cons, single c (bare c List.mem_cons_self),
        ih fun d member => bare d (List.mem_cons_of_mem c member)]
      rfl

theorem fold_separator {s : Str} (spelled : ∀ c ∈ s, isSpaceOrZwnj c = true) : s.flatMap foldChar = s := by
  induction s with
  | nil => rfl
  | cons c s ih =>
      have here := spelled c List.mem_cons_self
      have single : foldChar c = [c] := by
        simp only [isSpaceOrZwnj, Bool.or_eq_true, beq_iff_eq] at here
        rcases here with rfl | rfl <;> decide
      rw [List.flatMap_cons, single, ih fun d member => spelled d (List.mem_cons_of_mem c member)]
      rfl

theorem fold_letters {x : Str} (letters : ∀ c ∈ x, c ∈ persianLetters) :
    (x.flatMap foldChar).length = x.length ∧ ∀ c ∈ x.flatMap foldChar, isBlock c = true := by
  have single : ∀ c ∈ persianLetters, (foldChar c).length = 1 ∧ ∀ d ∈ foldChar c, isBlock d = true := by
    decide +kernel
  induction x with
  | nil => exact ⟨rfl, by simp⟩
  | cons c x ih =>
      obtain ⟨size, word⟩ := ih fun d member => letters d (List.mem_cons_of_mem c member)
      obtain ⟨one, block⟩ := single c (letters c List.mem_cons_self)
      refine ⟨by simp only [List.flatMap_cons, List.length_append, one, size, List.length_cons]; omega, ?_⟩
      intro d member
      rw [List.flatMap_cons] at member
      rcases List.mem_append.mp member with first | later
      · exact block d first
      · exact word d later

theorem plain_separator {c : Char} (spelled : isSpaceOrZwnj c = true) :
    c ∈ persianLetters ++ plainSeparators := by
  simp only [isSpaceOrZwnj, Bool.or_eq_true, beq_iff_eq] at spelled
  rcases spelled with rfl | rfl <;> decide

section Spellings

variable (nfkc : Nfkc) {u v : Str}

/-- The character-level steps reach a text between two stable ones letter by letter. -/
theorem normalize_between {mid : Str} (stable : characterSteps nfkc.run u = u)
    (stable' : characterSteps nfkc.run v = v) (nonempty : mid ≠ [])
    (plain : ∀ c ∈ mid, c ∈ persianLetters ++ plainSeparators) :
    normalize nfkc.run (u ++ (mid ++ v)) = gapSteps (u ++ (mid.flatMap foldChar ++ v)) := by
  have noMark : ∀ d ∈ v, isDiacritic d = false := stable' ▸ characterSteps_no_mark nfkc.run v
  have folded := nfkc.characterSteps_word nonempty plain u noMark
  rw [stable, stable'] at folded
  rw [normalize, if_neg (by simp [nonempty]), folded]
  rfl

variable {s s' : Str} (spelled : ∀ c ∈ s, isSpaceOrZwnj c = true) (spelled' : ∀ c ∈ s', isSpaceOrZwnj c = true)

theorem separator_gap {s : Str} (spelled : ∀ c ∈ s, isSpaceOrZwnj c = true) : IsGap isSep s :=
  fun c member => isSep_of_isSpaceOrZwnj (spelled c member)

include spelled spelled'

/-- A prefix and a stem: nothing but the separator between them depends on how it is spelled. -/
theorem gapSteps_before_stem (uEnd : ∀ c ∈ u.getLast?, c ∉ persianLetters) {p w : Str} (hp : p ∈ prefixes)
    (hw : w ∈ verbStems) :
    gapSteps (u ++ (p ++ (s ++ (w ++ v)))) = gapSteps (u ++ (p ++ (s' ++ (w ++ v)))) ↔
      finalGap (touching isBlock u.reverse ++ p) s (w ++ v.takeWhile isBlock) =
        finalGap (touching isBlock u.reverse ++ p) s' (w ++ v.takeWhile isBlock) := by
  obtain ⟨a, p, rfl⟩ := List.exists_cons_of_ne_nil (prefix_ne_nil hp)
  obtain ⟨x, w, rfl⟩ := List.exists_cons_of_ne_nil (stem_ne_nil hw)
  have word := isBlock_of_mem_stems hw
  refine gapSteps_separator (isBlock_of_mem_prefixes hp) word (separator_gap spelled)
    (separator_gap spelled') ?_ ?_
  · intro z nonempty ending
    have listed := fun rest => prefix_end_not_listed uEnd hp nonempty ending rest
    refine ⟨by simp [nonempty], ?_, ?_⟩
    · simp [(listed _).1]
    · simp [(listed _).2]
  · have alone : Quiet (x :: w) [] := by
      intro z nonempty part listed
      rw [List.nil_append] at listed
      rcases part with begins | goesOn
      · exact prefixEnd_begins_no_stem hw (prefix_mem_ends listed) begins
      · exact stem_begins_no_prefix hw listed goesOn
    have joined : Quiet (x :: w) (touching isBlock u.reverse ++ a :: p) := by
      intro z nonempty _ listed
      rw [List.append_assoc, mem_prefixes_after uEnd] at listed
      exact nonempty (prefix_complete hp listed.2)
    have quiet : ∀ t : Str, Quiet (x :: w) (through t (touching isBlock u.reverse ++ a :: p)) := by
      intro t
      unfold through
      split
      · exact joined
      · exact alone
    exact mapCells_quiet word (stem_long hw) (quiet s) (quiet s')

/-- A word and a suffix, apart in both spellings. -/
theorem gapSteps_before_suffix {x f : Str} (nonempty : x ≠ []) (word : ∀ c ∈ x, isBlock c = true)
    (hf : f ∈ suffixes) (apart : s ≠ []) (apart' : s' ≠ []) :
    gapSteps (u ++ (x ++ (s ++ (f ++ v)))) = gapSteps (u ++ (x ++ (s' ++ (f ++ v)))) ↔
      finalGap (touching isBlock u.reverse ++ x) s (f ++ v.takeWhile isBlock) =
        finalGap (touching isBlock u.reverse ++ x) s' (f ++ v.takeWhile isBlock) := by
  obtain ⟨a, x, rfl⟩ := List.exists_cons_of_ne_nil nonempty
  obtain ⟨y, f, rfl⟩ := List.exists_cons_of_ne_nil (suffix_ne_nil hf)
  have cut : ∀ r, through s r = through s' r := by simp [through, apart, apart']
  refine gapSteps_separator word (isBlock_of_mem_suffixes hf) (separator_gap spelled)
    (separator_gap spelled') ?_ ?_
  · intro z _ _
    rw [cut]
    exact ⟨Iff.rfl, Iff.rfl, Iff.rfl⟩
  · intro cs
    rw [cut]

omit spelled spelled' in
theorem kind_eq_none {s : Str} : kind s = .none ↔ s = [] := by
  unfold kind
  split
  · simp_all
  · split <;> simp_all

/-- Exactly when two spellings of a prefix and its stem meet. -/
theorem prefix_spellings_meet (stable : characterSteps nfkc.run u = u)
    (stable' : characterSteps nfkc.run v = v) (uEnd : ∀ c ∈ u.getLast?, c ∉ persianLetters)
    (vStart : ∀ c ∈ v.head?, c ∉ persianLetters) {p w : Str} (hp : p ∈ prefixes) (hw : w ∈ verbStems) :
    normalize nfkc.run (u ++ p ++ s ++ w ++ v) = normalize nfkc.run (u ++ p ++ s' ++ w ++ v) ↔
      kind s = kind s' ∨
        (¬ EndsInBlock u ∧ ((s ≠ [] ∧ s' ≠ []) ∨ ¬ StartsInBlock v)) := by
  have sentence : ∀ {s : Str}, (∀ c ∈ s, isSpaceOrZwnj c = true) →
      normalize nfkc.run (u ++ p ++ s ++ w ++ v) = gapSteps (u ++ (p ++ (s ++ (w ++ v)))) := by
    intro s spelled
    have plain : ∀ c ∈ p ++ (s ++ w), c ∈ persianLetters ++ plainSeparators := by
      intro c member
      have letter : ∀ {d}, d ∈ bareLetters → d ∈ persianLetters ++ plainSeparators :=
        fun bare => List.mem_append_left _ (List.mem_append_left _ bare)
      simp only [List.mem_append] at member
      rcases member with inPrefix | inSeparator | inStem
      · exact letter (prefix_bare hp c inPrefix)
      · exact plain_separator (spelled c inSeparator)
      · exact letter (stem_bare hw c inStem)
    have folded : (p ++ (s ++ w)).flatMap foldChar = p ++ (s ++ w) := by
      rw [List.flatMap_append, List.flatMap_append, fold_bare (prefix_bare hp), fold_separator spelled,
        fold_bare (stem_bare hw)]
    have steps := @normalize_between nfkc u v (p ++ (s ++ w)) stable stable'
      (by simp [prefix_ne_nil hp]) plain
    rw [folded] at steps
    simpa only [List.append_assoc] using steps
  have left : touching isBlock u.reverse ++ p ≠ [] := by simp [prefix_ne_nil hp]
  have right : w ++ v.takeWhile isBlock ≠ [] := by simp [stem_ne_nil hw]
  have noSuffix : w ++ v.takeWhile isBlock ∉ suffixes :=
    fun listed => stem_begins_no_suffix hw listed (List.prefix_append w _)
  rw [sentence spelled, sentence spelled', gapSteps_before_stem spelled spelled' uEnd hp hw,
    finalGap_separator left right spelled, finalGap_separator left right spelled']
  rw [fate_before_stem noSuffix, mem_prefixes_after uEnd, mem_stems_before vStart hw, touching_iff,
    takeWhile_iff]
  simp only [hp, and_true, ne_eq, kind_eq_none]

/-- Exactly when two spellings of a word and its suffix meet. -/
theorem suffix_spellings_meet (stable : characterSteps nfkc.run u = u)
    (stable' : characterSteps nfkc.run v = v) (uEnd : ∀ c ∈ u.getLast?, c ∉ persianLetters)
    (vStart : ∀ c ∈ v.head?, c ∉ persianLetters) {x f : Str} (letters : ∀ c ∈ x, c ∈ persianLetters)
    (long : 2 ≤ x.length) (hf : f ∈ suffixes) (apart : s ≠ []) (apart' : s' ≠ []) :
    normalize nfkc.run (u ++ x ++ s ++ f ++ v) = normalize nfkc.run (u ++ x ++ s' ++ f ++ v) ↔
      kind s = kind s' ∨ ¬ StartsInBlock v ∨
        (¬ EndsInBlock u ∧ characterSteps nfkc.run x ∈ prefixes) := by
  have sentence : ∀ {s : Str}, (∀ c ∈ s, isSpaceOrZwnj c = true) →
      normalize nfkc.run (u ++ x ++ s ++ f ++ v) =
        gapSteps (u ++ (x.flatMap foldChar ++ (s ++ (f ++ v)))) := by
    intro s spelled
    have plain : ∀ c ∈ x ++ (s ++ f), c ∈ persianLetters ++ plainSeparators := by
      intro c member
      simp only [List.mem_append] at member
      rcases member with inWord | inSeparator | inSuffix
      · exact List.mem_append_left _ (letters c inWord)
      · exact plain_separator (spelled c inSeparator)
      · exact List.mem_append_left _ (List.mem_append_left _ (suffix_bare hf c inSuffix))
    have folded : (x ++ (s ++ f)).flatMap foldChar = x.flatMap foldChar ++ (s ++ f) := by
      rw [List.flatMap_append, List.flatMap_append, fold_separator spelled, fold_bare (suffix_bare hf)]
    have steps := @normalize_between nfkc u v (x ++ (s ++ f)) stable stable'
      (by simp [suffix_ne_nil hf]) plain
    rw [folded] at steps
    simpa only [List.append_assoc] using steps
  obtain ⟨size, word⟩ := fold_letters letters
  have nonempty : x ≠ [] := List.length_pos_iff.mp (by omega)
  have nonempty' : x.flatMap foldChar ≠ [] := List.length_pos_iff.mp (by omega)
  have long' : 2 ≤ (touching isBlock u.reverse ++ x.flatMap foldChar).length := by
    rw [List.length_append]
    omega
  have alone : characterSteps nfkc.run x = x.flatMap foldChar := by
    have steps := nfkc.characterSteps_word nonempty (fun c member => List.mem_append_left _ (letters c member))
      [] (by simp : ∀ d ∈ ([] : Str), isDiacritic d = false)
    simpa using steps
  have left : touching isBlock u.reverse ++ x.flatMap foldChar ≠ [] := by simp [nonempty']
  have right : f ++ v.takeWhile isBlock ≠ [] := by simp [suffix_ne_nil hf]
  rw [sentence spelled, sentence spelled', gapSteps_before_suffix spelled spelled' nonempty' word hf apart apart',
    finalGap_separator left right spelled, finalGap_separator left right spelled',
    fate_before_suffix long' (kind_eq_none.not.mpr apart) (kind_eq_none.not.mpr apart'),
    mem_prefixes_after uEnd, mem_suffixes_before vStart hf, touching_iff, takeWhile_iff, alone]

/-- Spelling variants meet unless block characters of the surrounding text touch them. -/
theorem half_space_spellings_meet_iff (stable : characterSteps nfkc.run u = u)
    (stable' : characterSteps nfkc.run v = v) (uEnd : ∀ c ∈ u.getLast?, c ∉ persianLetters)
    (vStart : ∀ c ∈ v.head?, c ∉ persianLetters) :
    (∀ p ∈ prefixes, ∀ w ∈ verbStems,
      (normalize nfkc.run (u ++ p ++ s ++ w ++ v) = normalize nfkc.run (u ++ p ++ s' ++ w ++ v) ↔
        kind s = kind s' ∨ (¬ EndsInBlock u ∧ ((s ≠ [] ∧ s' ≠ []) ∨ ¬ StartsInBlock v)))) ∧
    (s ≠ [] → s' ≠ [] → ∀ x : Str, (∀ c ∈ x, c ∈ persianLetters) → 2 ≤ x.length → ∀ f ∈ suffixes,
      (normalize nfkc.run (u ++ x ++ s ++ f ++ v) = normalize nfkc.run (u ++ x ++ s' ++ f ++ v) ↔
        kind s = kind s' ∨ ¬ StartsInBlock v ∨
          (¬ EndsInBlock u ∧ characterSteps nfkc.run x ∈ prefixes))) := by
  refine ⟨?_, ?_⟩
  · intro p hp w hw
    exact prefix_spellings_meet nfkc spelled spelled' stable stable' uEnd vStart hp hw
  · intro apart apart' x letters long f hf
    exact suffix_spellings_meet nfkc spelled spelled' stable stable' uEnd vStart letters long hf apart apart'

omit spelled spelled' in
theorem half_space_spellings_meet_iff_full_stop :
    normalize Nfkc.identity.run "می\u200cشود.".toList = normalize Nfkc.identity.run "می شود.".toList ∧
      normalize Nfkc.identity.run "کتاب\u200cها.".toList = normalize Nfkc.identity.run "کتاب ها.".toList := by
  have meet := @half_space_spellings_meet_iff Nfkc.identity [] ['.'] [zwnj] [' '] (by decide) (by decide)
    (by decide) (by decide) (by decide) (by decide)
  exact ⟨(meet.1 "می".toList (by decide) "شود".toList (by decide)).mpr (.inr (by decide)),
    (meet.2 (by decide) (by decide) "کتاب".toList (by decide) (by decide) "ها".toList (by decide)).mpr
      (.inr (.inl (by decide)))⟩

omit spelled spelled' in
/-- A question mark of the block keeps all three spellings of a prefix apart, and both of a suffix. -/
theorem question_mark_keeps_spellings_apart :
    ¬ ∀ (nfkc : Nfkc) (u v : Str), characterSteps nfkc.run u = u → characterSteps nfkc.run v = v →
      (∀ c ∈ u.getLast?, c ∉ persianLetters) → (∀ c ∈ v.head?, c ∉ persianLetters) →
      (∀ p ∈ prefixes, ∀ w ∈ verbStems, ∀ s s' : Str, (∀ c ∈ s, isSpaceOrZwnj c = true) →
        (∀ c ∈ s', isSpaceOrZwnj c = true) →
        normalize nfkc.run (u ++ p ++ s ++ w ++ v) = normalize nfkc.run (u ++ p ++ s' ++ w ++ v)) ∧
      ∀ x : Str, (∀ c ∈ x, c ∈ persianLetters) → 2 ≤ x.length → ∀ f ∈ suffixes, ∀ s s' : Str,
        s ≠ [] → s' ≠ [] → (∀ c ∈ s, isSpaceOrZwnj c = true) → (∀ c ∈ s', isSpaceOrZwnj c = true) →
        normalize nfkc.run (u ++ x ++ s ++ f ++ v) = normalize nfkc.run (u ++ x ++ s' ++ f ++ v) := by
  intro claim
  have meet := (claim Nfkc.identity [] ['؟'] (by decide) (by decide) (by decide) (by decide)).1
    "می".toList (by decide) "شود".toList (by decide) [] [' '] (by decide) (by decide)
  exact absurd meet (by decide +kernel)

end Spellings

end Nipoto.Normalize
