import Mathlib.Algebra.GroupWithZero.Nat
import Nipoto.General.Dict
import Nipoto.Retrieval.Words

/-! # The character-level steps

NFKC is known by three properties only: a letter or separator that takes part in
no composition splits a text into independent parts, every character has a
positive weight that NFKC preserves in sum (the length of its full compatibility
decomposition), and the characters that the tables fold to have weight one. All
other steps map each character on its own.
-/

namespace Nipoto.Normalize

open Text Text.Regex

def plainSeparators : Str := [' ', '\n', '\t', zwnj]

/-- What `letters` and `digits` fold to. -/
def foldTargets : Str := "یکهاو0123456789.".toList

/-- `unicodedata.normalize("NFKC", text)`, as far as the proofs depend on it. -/
structure Nfkc where
  run : Str → Str
  independent : ∀ a c b, c ∈ persianLetters ++ plainSeparators → (∀ d ∈ b, isDiacritic d = false) →
    run (a ++ c :: b) = run a ++ c :: run b
  weight : Char → Nat
  weight_pos : ∀ c, 0 < weight c
  weight_target : ∀ c ∈ foldTargets, weight c = 1
  weight_run : ∀ t, ((run t).map weight).sum = (t.map weight).sum

/-- On texts without compatibility characters and combining marks NFKC is the identity. -/
def Nfkc.identity : Nfkc where
  run t := t
  independent _ _ _ _ _ := rfl
  weight _ := 1
  weight_pos _ := Nat.one_pos
  weight_target _ _ := rfl
  weight_run _ := rfl

def foldChar (c : Char) : Str :=
  (translate digits (translate letters (translate invisible [c]))).filter fun d => !isDiacritic d

theorem matchAt_diacritics (before : Str) (x : Char) (rest : Str) :
    diacritics.matchAt before (x :: rest) =
      if isDiacritic x then some { before := x :: before, rest } else none := by
  simp [diacritics, Pattern.matchAt, Pattern.follow, seesAhead, Cursor.advance]

theorem sub_diacritics (t : Str) :
    sub diacritics (fun _ => []) t = t.filter fun d => !isDiacritic d := by
  have scan : ∀ before, subFrom diacritics (fun _ => []) 0 before t =
      t.filter fun d => !isDiacritic d := by
    induction t with
    | nil => simp
    | cons x t ih =>
        intro before
        have found := matchAt_diacritics before x t
        cases mark : isDiacritic x with
        | false =>
            rw [mark, if_neg (by simp)] at found
            rw [subFrom_of_none found, ih]
            simp [mark]
        | true =>
            rw [mark, if_pos rfl] at found
            rw [show x :: t = [x] ++ t from rfl] at found ⊢
            rw [subFrom_of_some (by simp) found rfl, ih]
            simp [mark]
  exact scan []

theorem translate_append (table : List (Char × Str)) (s t : Str) :
    translate table (s ++ t) = translate table s ++ translate table t := List.flatMap_append

theorem translate_flatMap (table : List (Char × Str)) (f : Char → Str) (t : Str) :
    translate table (t.flatMap f) = t.flatMap fun c => translate table (f c) := by
  induction t with
  | nil => rfl
  | cons c t ih => rw [List.flatMap_cons, translate_append, ih, List.flatMap_cons]

theorem characterSteps_eq (nfkc : Str → Str) (t : Str) :
    characterSteps nfkc t = (nfkc t).flatMap foldChar := by
  have single : nfkc t = (nfkc t).flatMap fun c => [c] := by simp
  rw [characterSteps, sub_diacritics]
  conv_lhs => rw [single]
  rw [translate_flatMap, translate_flatMap, translate_flatMap, List.filter_flatMap]
  rfl

theorem characterSteps_no_mark (nfkc : Str → Str) (t : Str) :
    ∀ c ∈ characterSteps nfkc t, isDiacritic c = false := by
  intro c member
  rw [characterSteps, sub_diacritics] at member
  simpa using (List.mem_filter.mp member).2

/-- A character goes, stays or becomes one of the fold targets. -/
def Folded (c : Char) (s : Str) : Prop := s = [] ∨ s = [c] ∨ ∃ d ∈ foldTargets, s = [d]

theorem translate_folded {table : List (Char × Str)}
    (values : ∀ entry ∈ table, entry.2 = [] ∨ ∃ d ∈ foldTargets, entry.2 = [d]) {c : Char} {s : Str}
    (h : Folded c s) : Folded c (translate table s) := by
  have entry : ∀ x, translate table [x] = [] ∨ translate table [x] = [x] ∨
      ∃ d ∈ foldTargets, translate table [x] = [d] := by
    intro x
    cases found : table.lookup x with
    | none => exact .inr (.inl (by simp [translate, found]))
    | some v =>
        have member := Dict.mem_of_lookup found
        have same : translate table [x] = v := by simp [translate, found]
        rcases values (x, v) member with gone | target
        · exact .inl (same.trans gone)
        · exact .inr (.inr (same ▸ target))
  rcases h with rfl | rfl | ⟨d, target, rfl⟩
  · exact .inl rfl
  · exact entry c
  · rcases entry d with gone | same | other
    · exact .inl gone
    · exact .inr (.inr ⟨d, target, same⟩)
    · exact .inr (.inr other)

theorem foldChar_folded (c : Char) : Folded c (foldChar c) := by
  have steps : Folded c (translate digits (translate letters (translate invisible [c]))) := by
    refine translate_folded (by decide) (translate_folded (by decide)
      (translate_folded (by decide) (.inr (.inl rfl))))
  rw [foldChar]
  rcases steps with gone | same | ⟨d, target, other⟩
  · exact .inl (by rw [gone]; rfl)
  · rw [same]
    cases mark : isDiacritic c with
    | true => exact .inl (by simp [mark])
    | false => exact .inr (.inl (by simp [mark]))
  · rw [other]
    cases mark : isDiacritic d with
    | true => exact .inl (by simp [mark])
    | false => exact .inr (.inr ⟨d, target, by simp [mark]⟩)

namespace Nfkc

variable (nfkc : Nfkc)

def weightOf (t : Str) : Nat := (t.map nfkc.weight).sum

@[simp] theorem weightOf_nil : nfkc.weightOf [] = 0 := rfl

@[simp] theorem weightOf_cons (c : Char) (t : Str) :
    nfkc.weightOf (c :: t) = nfkc.weight c + nfkc.weightOf t := by simp [weightOf]

@[simp] theorem weightOf_append (s t : Str) :
    nfkc.weightOf (s ++ t) = nfkc.weightOf s + nfkc.weightOf t := by simp [weightOf]

theorem weightOf_eq_zero {t : Str} (none : nfkc.weightOf t = 0) : t = [] := by
  cases t with
  | nil => rfl
  | cons c t =>
      have positive := nfkc.weight_pos c
      rw [weightOf_cons] at none
      omega

/-- Two beginnings of one text are the same when they weigh the same. -/
theorem append_inj_of_weight {a a' b b' : Str} (same : a ++ b = a' ++ b')
    (weights : nfkc.weightOf a = nfkc.weightOf a') : a = a' ∧ b = b' := by
  rcases List.append_eq_append_iff.mp same with ⟨z, rfl, rfl⟩ | ⟨z, rfl, rfl⟩
  · have none : nfkc.weightOf z = 0 := by rw [weightOf_append] at weights; omega
    simp [nfkc.weightOf_eq_zero none]
  · have none : nfkc.weightOf z = 0 := by rw [weightOf_append] at weights; omega
    simp [nfkc.weightOf_eq_zero none]

theorem weightOf_foldChar (c : Char) : nfkc.weightOf (foldChar c) ≤ nfkc.weight c := by
  have positive := nfkc.weight_pos c
  rcases foldChar_folded c with gone | same | ⟨d, target, other⟩
  · simp [gone]
  · simp [same]
  · simp only [other, weightOf_cons, weightOf_nil, nfkc.weight_target d target]
    omega

theorem weightOf_characterSteps (t : Str) :
    nfkc.weightOf (characterSteps nfkc.run t) ≤ nfkc.weightOf t := by
  have folds : ∀ s : Str, nfkc.weightOf (s.flatMap foldChar) ≤ nfkc.weightOf s := by
    intro s
    induction s with
    | nil => simp
    | cons c s ih =>
        have first := nfkc.weightOf_foldChar c
        simp only [List.flatMap_cons, weightOf_append, weightOf_cons]
        omega
  have kept : nfkc.weightOf (nfkc.run t) = nfkc.weightOf t := nfkc.weight_run t
  rw [characterSteps_eq, ← kept]
  exact folds _

theorem run_nil : nfkc.run [] = [] := nfkc.weightOf_eq_zero (nfkc.weight_run [])

@[simp] theorem characterSteps_nil : characterSteps nfkc.run [] = [] := by
  rw [characterSteps_eq, nfkc.run_nil]
  rfl

theorem characterSteps_plain {c : Char} (plain : c ∈ persianLetters ++ plainSeparators) (a : Str) {b : Str}
    (noMark : ∀ d ∈ b, isDiacritic d = false) :
    characterSteps nfkc.run (a ++ c :: b) =
      characterSteps nfkc.run a ++ (foldChar c ++ characterSteps nfkc.run b) := by
  simp only [characterSteps_eq, nfkc.independent a c b plain noMark, List.flatMap_append,
    List.flatMap_cons]

end Nfkc

theorem plain_no_mark : ∀ c ∈ persianLetters ++ plainSeparators, isDiacritic c = false := by decide

/-- A text of plain characters is folded letter by letter, wherever it stands. -/
theorem Nfkc.characterSteps_word (nfkc : Nfkc) {w : Str} (nonempty : w ≠ [])
    (plain : ∀ c ∈ w, c ∈ persianLetters ++ plainSeparators) (a : Str) {b : Str}
    (noMark : ∀ d ∈ b, isDiacritic d = false) :
    characterSteps nfkc.run (a ++ (w ++ b)) =
      characterSteps nfkc.run a ++ (w.flatMap foldChar ++ characterSteps nfkc.run b) := by
  induction w generalizing a with
  | nil => exact absurd rfl nonempty
  | cons c w ih =>
      have here := plain c List.mem_cons_self
      cases w with
      | nil => simpa using nfkc.characterSteps_plain here a noMark
      | cons d w =>
          have later := fun e member => plain e (List.mem_cons_of_mem c member)
          have noMark' : ∀ e ∈ d :: w ++ b, isDiacritic e = false := by
            intro e member
            rcases List.mem_append.mp member with inWord | inRest
            · exact plain_no_mark e (later e inWord)
            · exact noMark e inRest
          have rest := ih (by simp) later []
          rw [nfkc.characterSteps_nil, List.nil_append, List.nil_append] at rest
          rw [List.cons_append, nfkc.characterSteps_plain here a noMark', rest]
          simp only [List.flatMap_cons, List.append_assoc]

/-- A plain character that no table changes. -/
def Inert (c : Char) : Prop := c ∈ persianLetters ++ plainSeparators ∧ foldChar c = [c]

theorem inert_separator {c : Char} (member : c ∈ plainSeparators) : Inert c :=
  ⟨List.mem_append_right _ member, (by decide : ∀ d ∈ plainSeparators, foldChar d = [d]) c member⟩

/-- An inert character parts a text also where the steps leave it unchanged. -/
theorem Nfkc.stable_split (nfkc : Nfkc) {c : Char} (inert : Inert c) (a : Str) {b : Str}
    (noMark : ∀ d ∈ b, isDiacritic d = false) :
    characterSteps nfkc.run (a ++ c :: b) = a ++ c :: b ↔
      characterSteps nfkc.run a = a ∧ characterSteps nfkc.run b = b := by
  rw [nfkc.characterSteps_plain inert.1 a noMark, inert.2]
  constructor
  · intro same
    have total := congrArg nfkc.weightOf same
    have left := nfkc.weightOf_characterSteps a
    have right := nfkc.weightOf_characterSteps b
    simp only [weightOf_append, weightOf_cons, weightOf_nil] at total
    obtain ⟨first, rest⟩ := nfkc.append_inj_of_weight same (by omega)
    exact ⟨first, (List.cons.inj rest).2⟩
  · rintro ⟨left, right⟩
    rw [left, right]
    rfl

end Nipoto.Normalize
