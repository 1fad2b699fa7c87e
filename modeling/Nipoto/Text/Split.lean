import Nipoto.Text.Content

/-! # Splitting at runs of one class

`pattern.split` where the pattern takes at least some number of characters of a
class. No part holds such a run, and parts that neither hold one nor touch the
class at their ends come back from their join.
-/

namespace Nipoto.Text

open Regex

variable {low : Nat} {p : Char → Bool}

/-- No `low` characters in a row are of the class. -/
def Unbroken (low : Nat) (p : Char → Bool) (s : Str) : Prop :=
  ∀ w, w <:+: s → low ≤ w.length → ∃ c ∈ w, p c = false

theorem Unbroken.part {s t : Str} (unbroken : Unbroken low p t) (inside : s <:+: t) : Unbroken low p s :=
  fun w part => unbroken w (part.trans inside)

theorem unbroken_nil (some : 0 < low) : Unbroken low p [] := by
  intro w inside long
  rw [List.infix_nil.mp inside, List.length_nil] at long
  omega

theorem unbroken_cons {x : Char} {s : Str} (unbroken : Unbroken low p s)
    (first : ∀ w, w <+: x :: s → low ≤ w.length → ∃ c ∈ w, p c = false) : Unbroken low p (x :: s) := by
  intro w inside long
  cases List.infix_cons_iff.mp inside with
  | inl opens => exact first w opens long
  | inr later => exact unbroken w later long

theorem matchAt_run {before rest : Str} {d : Cursor}
    (found : (Pattern.many low none p).matchAt before rest = some d) :
    ∃ w, rest = w ++ d.rest ∧ low ≤ w.length ∧ ∀ c ∈ w, p c = true := by
  obtain ⟨w, r, split, long, inside, rfl⟩ := matches_many.mp (Pattern.matchAt_sound found)
  exact ⟨w, split, long, inside⟩

theorem matchAt_run_eq_none {before rest : Str} :
    (Pattern.many low none p).matchAt before rest = none ↔
      ∀ w, w <+: rest → low ≤ w.length → ∃ c ∈ w, p c = false := by
  rw [Pattern.matchAt_eq_none]
  constructor
  · intro never w opens long
    obtain ⟨r, split⟩ := opens
    by_contra inside
    apply never { before := w.reverse ++ before, rest := r }
    exact matches_many.mpr ⟨w, r, split.symm, long, by simpa using inside, rfl⟩
  · intro outside d possible
    obtain ⟨w, r, split, long, inside, -⟩ := matches_many.mp possible
    obtain ⟨c, member, other⟩ := outside w ⟨r, split.symm⟩ long
    rw [inside c member] at other
    exact absurd other (by simp)

/-- At each character the split copies it or cuts there. -/
theorem splitFrom_cases (some : 0 < low) (before : Str) (x : Char) (rest : Str) :
    ((Pattern.many low none p).matchAt before (x :: rest) = none ∧
        ∀ piece, splitFrom (.many low none p) 0 before piece (x :: rest) =
          splitFrom (.many low none p) 0 (x :: before) (x :: piece) rest) ∨
      ∃ width, ∀ piece, splitFrom (.many low none p) 0 before piece (x :: rest) =
        piece.reverse :: splitFrom (.many low none p) width (x :: before) [] rest := by
  cases found : (Pattern.many low none p).matchAt before (x :: rest) with
  | none => exact .inl ⟨rfl, fun piece => by simp only [splitFrom, found]⟩
  | some d =>
      obtain ⟨w, split, long, -⟩ := matchAt_run found
      have width : (x :: rest).length - d.rest.length = w.length - 1 + 1 := by
        rw [split, List.length_append]
        omega
      exact .inr ⟨w.length - 1, fun piece => by simp only [splitFrom, found, width]⟩

theorem splitFrom_piece (some : 0 < low) (skip : Nat) (before piece text : Str) :
    splitFrom (.many low none p) skip before piece text =
      (splitFrom (.many low none p) skip before [] text).modifyHead (piece.reverse ++ ·) := by
  induction text generalizing skip before piece with
  | nil => cases skip <;> simp [splitFrom]
  | cons x rest ih =>
      cases skip with
      | succ skip => exact ih skip (x :: before) piece
      | zero =>
          cases @splitFrom_cases low p some before x rest with
          | inl copied =>
              rw [copied.2, copied.2, ih 0 (x :: before) (x :: piece), ih 0 (x :: before) [x],
                List.modifyHead_modifyHead]
              congr 1
              funext part
              simp
          | inr found =>
              obtain ⟨width, cuts⟩ := found
              rw [cuts, cuts]
              simp

/-- The first part begins the text. -/
theorem splitFrom_head (some : 0 < low) (before text : Str) :
    ∃ part later, splitFrom (.many low none p) 0 before [] text = part :: later ∧ part <+: text := by
  induction text generalizing before with
  | nil => exact ⟨[], [], rfl, List.prefix_refl _⟩
  | cons x rest ih =>
      cases @splitFrom_cases low p some before x rest with
      | inl copied =>
          obtain ⟨part, later, first, opens⟩ := ih (x :: before)
          refine ⟨x :: part, later, ?_, List.cons_prefix_cons.mpr ⟨rfl, opens⟩⟩
          rw [copied.2, splitFrom_piece some, first]
          rfl
      | inr found =>
          obtain ⟨width, cuts⟩ := found
          exact ⟨[], _, cuts [], List.nil_prefix⟩

theorem splitFrom_unbroken (some : 0 < low) (skip : Nat) (before text : Str) :
    ∀ part ∈ splitFrom (.many low none p) skip before [] text, Unbroken low p part := by
  induction text generalizing skip before with
  | nil =>
      intro part member
      obtain rfl : part = [] := by cases skip <;> simpa [splitFrom] using member
      exact unbroken_nil some
  | cons x rest ih =>
      cases skip with
      | succ skip => exact ih skip (x :: before)
      | zero =>
          cases @splitFrom_cases low p some before x rest with
          | inl copied =>
              obtain ⟨first, later, split, opens⟩ := @splitFrom_head low p some (x :: before) rest
              have parts := ih 0 (x :: before)
              rw [split] at parts
              have longer : Unbroken low p (x :: first) := by
                apply unbroken_cons (parts first List.mem_cons_self)
                intro w atFront long
                have inText := atFront.trans (List.cons_prefix_cons.mpr ⟨rfl, opens⟩)
                exact matchAt_run_eq_none.mp copied.1 w inText long
              rw [copied.2, splitFrom_piece some, split]
              intro part member
              cases List.mem_cons.mp member with
              | inl same => exact same ▸ longer
              | inr inLater => exact parts part (List.mem_cons_of_mem _ inLater)
          | inr found =>
              obtain ⟨width, cuts⟩ := found
              rw [cuts]
              intro part member
              cases List.mem_cons.mp member with
              | inl same => exact same ▸ unbroken_nil some
              | inr later => exact ih width (x :: before) part later

theorem splitAt_unbroken (some : 0 < low) {text part : Str} (member : part ∈ splitAt (.many low none p) text) :
    Unbroken low p part := splitFrom_unbroken some 0 [] text part member

/-- A part without a run that ends outside the class. -/
theorem splitFrom_copy {s : Str} (unbroken : Unbroken low p s) (ends : ∀ c ∈ s.getLast?, p c = false)
    (before piece t : Str) :
    splitFrom (.many low none p) 0 before piece (s ++ t) =
      splitFrom (.many low none p) 0 (s.reverse ++ before) (s.reverse ++ piece) t := by
  induction s generalizing before piece with
  | nil => rfl
  | cons x s ih =>
      have never : (Pattern.many low none p).matchAt before (x :: (s ++ t)) = none := by
        apply matchAt_run_eq_none.mpr
        intro w opens long
        cases List.prefix_or_prefix_of_prefix opens (List.prefix_append (x :: s) t) with
        | inl inside => exact unbroken w inside.isInfix long
        | inr covers =>
            -- a run this long would take the last character of the part
            have last := List.getLast?_eq_some_getLast (List.cons_ne_nil x s)
            exact ⟨_, covers.subset (List.mem_of_getLast? last), ends _ last⟩
      have later := ih (unbroken.part (List.infix_cons (List.infix_refl s)))
        (fun c last => ends c (by rw [List.getLast?_cons, Option.mem_def.mp last]; rfl)) (x :: before) (x :: piece)
      simp only [List.cons_append, splitFrom, never, later, List.reverse_cons, List.append_assoc, List.nil_append]

theorem splitFrom_cut (some : 0 < low) {sep t : Str} (long : low ≤ sep.length) (inside : ∀ c ∈ sep, p c = true)
    (begins : ∀ c ∈ t.head?, p c = false) (before piece : Str) :
    splitFrom (.many low none p) 0 before piece (sep ++ t) =
      piece.reverse :: splitFrom (.many low none p) 0 (sep.reverse ++ before) [] t := by
  have found := matchAt_many before long inside begins
  cases sep with
  | nil => simp only [List.length_nil] at long; omega
  | cons x sep =>
      have width : (x :: (sep ++ t)).length - t.length = sep.length + 1 := by
        simp only [List.length_cons, List.length_append]
        omega
      simp only [List.cons_append] at found ⊢
      simp only [splitFrom, found, width, splitFrom_skip]
      simp

/-- A part that a split gives back from a join. -/
structure Separate (low : Nat) (p : Char → Bool) (part : Str) : Prop where
  unbroken : Unbroken low p part
  begins : ∀ c ∈ part.head?, p c = false
  ends : ∀ c ∈ part.getLast?, p c = false
  some : part ≠ []

theorem join_head (sep : Str) {part : Str} (some : part ≠ []) (more : List Str) :
    (join sep (part :: more)).head? = part.head? := by
  cases part with
  | nil => exact absurd rfl some
  | cons c part => rw [join, List.intercalate_cons_cons_left, List.head?_cons, List.head?_cons]

theorem splitFrom_join (some : 0 < low) {sep : Str} (long : low ≤ sep.length) (inside : ∀ c ∈ sep, p c = true)
    {part : Str} {more : List Str} (separate : ∀ other ∈ part :: more, Separate low p other) (before : Str) :
    splitFrom (.many low none p) 0 before [] (join sep (part :: more)) = part :: more := by
  induction more generalizing part before with
  | nil =>
      have only := separate part List.mem_cons_self
      have copied := splitFrom_copy only.unbroken only.ends before [] []
      simpa [join, splitFrom] using copied
  | cons next more ih =>
      have first := separate part List.mem_cons_self
      have later := fun other member => separate other (List.mem_cons_of_mem part member)
      have second := later next List.mem_cons_self
      have begins : ∀ c ∈ (join sep (next :: more)).head?, p c = false := by
        rw [join_head sep second.some]
        exact second.begins
      have parts : join sep (part :: next :: more) = part ++ (sep ++ join sep (next :: more)) := by
        rw [join, List.intercalate_cons_cons, List.append_assoc]
        rfl
      rw [parts, splitFrom_copy first.unbroken first.ends, splitFrom_cut some long inside begins, ih later]
      simp

theorem splitAt_join (some : 0 < low) {sep : Str} (long : low ≤ sep.length) (inside : ∀ c ∈ sep, p c = true)
    {parts : List Str} (separate : ∀ part ∈ parts, Separate low p part) (filled : parts ≠ []) :
    splitAt (.many low none p) (join sep parts) = parts := by
  cases parts with
  | nil => exact absurd rfl filled
  | cons part more => exact splitFrom_join some long inside separate []

end Nipoto.Text
