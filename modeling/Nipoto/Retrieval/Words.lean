import Nipoto.Retrieval.Normalize

/-! # The listed words

The prefixes, suffixes and verb stems are words over one small alphabet, and no
word of one list begins a word of another. The long list is checked once, by
`isStem`; everything else is read off that check.
-/

namespace Nipoto.Normalize

open Text

/-- The texts `(ن?می)` matches. -/
def prefixes : List Str := ["می".toList, "نمی".toList]

/-- The Persian alphabet without the hamza forms that are folded away. -/
def bareLetters : Str := "آابپتثجچحخدذرزژسشصضطظعغفقکگلمنوهیء".toList

def persianLetters : Str := bareLetters ++ ['أ', 'ؤ', 'ئ']

/-- The ends of the prefixes. -/
def prefixEnds : List Str := ["ی".toList, "می".toList, "نمی".toList]

/-- Letters are compared by code point, which the kernel does fast. -/
def isBareWord (w : Str) : Bool := w.all fun c => (bareLetters.map Char.toNat).contains c.toNat

/-- What the proofs need to know about a verb stem. -/
def isStem (w : Str) : Bool :=
  decide (2 ≤ w.length) && isBareWord w && prefixEnds.all (fun z => !z.isPrefixOf w) &&
    prefixes.all (fun p => !w.isPrefixOf p) && suffixes.all (fun f => !w.isPrefixOf f)

theorem stems_checked : (verbStems.all isStem) = true := by decide +kernel

theorem letters_block : ∀ c ∈ persianLetters, isBlock c = true := by decide

theorem mem_bareLetters {w : Str} (bare : isBareWord w = true) : ∀ c ∈ w, c ∈ bareLetters := by
  intro c member
  have code := List.all_eq_true.mp bare c member
  obtain ⟨d, inAlphabet, same⟩ := List.mem_map.mp (List.contains_iff_mem.mp code)
  rwa [← Char.toNat_inj.mp same]

theorem isBlock_of_bare {w : Str} (bare : ∀ c ∈ w, c ∈ bareLetters) : ∀ c ∈ w, isBlock c = true :=
  fun c member => letters_block c (List.mem_append_left _ (bare c member))

theorem not_begins {z w : Str} (checked : (!z.isPrefixOf w) = true) : ¬ z <+: w := by
  intro begins
  rw [List.isPrefixOf_iff_prefix.mpr begins] at checked
  exact absurd checked (by simp)

section Stems

variable {s : Str} (member : s ∈ verbStems)

include member

theorem stem_checked : isStem s = true := List.all_eq_true.mp stems_checked s member

theorem stem_long : 2 ≤ s.length := by
  have checked := stem_checked member
  simp only [isStem, Bool.and_eq_true, decide_eq_true_eq] at checked
  exact checked.1.1.1.1

theorem stem_bare : ∀ c ∈ s, c ∈ bareLetters := by
  have checked := stem_checked member
  simp only [isStem, Bool.and_eq_true] at checked
  exact mem_bareLetters checked.1.1.1.2

theorem prefixEnd_begins_no_stem {z : Str} (ending : z ∈ prefixEnds) : ¬ z <+: s := by
  have checked := stem_checked member
  simp only [isStem, Bool.and_eq_true, List.all_eq_true] at checked
  exact not_begins (checked.1.1.2 z ending)

theorem stem_begins_no_prefix {p : Str} (hp : p ∈ prefixes) : ¬ s <+: p := by
  have checked := stem_checked member
  simp only [isStem, Bool.and_eq_true, List.all_eq_true] at checked
  exact not_begins (checked.1.2 p hp)

theorem stem_begins_no_suffix {f : Str} (hf : f ∈ suffixes) : ¬ s <+: f := by
  have checked := stem_checked member
  simp only [isStem, Bool.and_eq_true, List.all_eq_true] at checked
  exact not_begins (checked.2 f hf)

theorem stem_ne_nil : s ≠ [] := by
  rintro rfl
  exact absurd (stem_long member) (by decide)

theorem isBlock_of_mem_stems : ∀ c ∈ s, isBlock c = true := isBlock_of_bare (stem_bare member)

end Stems

section Affixes

variable {p q f a b : Str}

theorem prefix_bare (hp : p ∈ prefixes) : ∀ c ∈ p, c ∈ bareLetters := by
  revert p
  decide

theorem suffix_bare (hf : f ∈ suffixes) : ∀ c ∈ f, c ∈ bareLetters := by
  revert f
  decide +kernel

theorem prefixEnd_begins_no_suffix : ∀ z ∈ prefixEnds, ∀ f ∈ suffixes, ¬ z <+: f := by decide

theorem prefix_mem_ends (hp : p ∈ prefixes) : p ∈ prefixEnds := by
  revert p
  decide

theorem mem_prefixEnds (hp : p ∈ prefixes) {z : Str} (nonempty : z ≠ []) (ending : z <:+ p) :
    z ∈ prefixEnds := by
  have listed : ∀ p ∈ prefixes, ∀ z ∈ p.tails, z ≠ [] → z ∈ prefixEnds := by decide
  exact listed p hp z ((List.mem_tails z p).mpr ending) nonempty

theorem prefix_ne_nil (hp : p ∈ prefixes) : p ≠ [] := by
  rintro rfl
  revert hp
  decide

theorem suffix_ne_nil (hf : f ∈ suffixes) : f ≠ [] := by
  rintro rfl
  revert hf
  decide

theorem isBlock_of_mem_prefixes (hp : p ∈ prefixes) : ∀ c ∈ p, isBlock c = true :=
  isBlock_of_bare (prefix_bare hp)

theorem isBlock_of_mem_suffixes (hf : f ∈ suffixes) : ∀ c ∈ f, isBlock c = true :=
  isBlock_of_bare (suffix_bare hf)

theorem prefix_unique (hp : p ∈ prefixes) (hq : q ∈ prefixes) (same : p ++ a = q ++ b) :
    p = q ∧ a = b := by
  simp only [prefixes, List.mem_cons, List.not_mem_nil, or_false] at hp hq
  rcases hp with rfl | rfl <;> rcases hq with rfl | rfl <;> simp_all

/-- No prefix is the beginning of a longer one. -/
theorem prefix_complete (hp : p ∈ prefixes) (longer : p ++ a ∈ prefixes) : a = [] :=
  (prefix_unique hp longer (List.append_nil (p ++ a)).symm).2

/-- A text with a foreign character is not a listed word. -/
theorem not_listed {z : Str} {c : Char} (member : c ∈ z) (foreign : c ∉ persianLetters) :
    z ∉ prefixes ∧ z ∉ suffixes ∧ z ∉ verbStems := by
  have other : c ∉ bareLetters := fun bare => foreign (List.mem_append_left _ bare)
  exact ⟨fun listed => other (prefix_bare listed c member),
    fun listed => other (suffix_bare listed c member), fun listed => other (stem_bare listed c member)⟩

end Affixes

end Nipoto.Normalize
