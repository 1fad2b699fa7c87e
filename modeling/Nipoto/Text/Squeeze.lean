import Nipoto.Text.Regex

/-! # Replacing the runs of one character class

Substitution with an unbounded repetition works run by run: whatever surrounds a
run is neither read nor changed, so it distributes over every character outside
the class.
-/

namespace Nipoto.Text.Regex

variable (low : Nat) (p : Char → Bool) (put : Str)

/-- Replace every maximal run of at least `low` characters of the class. -/
def squeeze (text : Str) : Str := sub (.many low none p) (fun _ => put) text

variable {low p put}

theorem matchAt_many_outside (positive : 0 < low) {x : Char} (outside : p x = false)
    (before rest : Str) : (Pattern.many low none p).matchAt before (x :: rest) = none := by
  rw [Pattern.matchAt_eq_none]
  intro d m
  obtain ⟨w, r, split, long, inside, _⟩ := matches_many.mp m
  cases w with
  | nil => simp at long; omega
  | cons y w =>
      obtain rfl : x = y := (List.cons.inj split).1
      simp [inside x List.mem_cons_self] at outside

theorem matchAt_many_short {w : Str} (inside : ∀ x ∈ w, p x = true) (short : w.length < low)
    {rest : Str} (ended : ∀ x ∈ rest.head?, p x = false) (before : Str) :
    (Pattern.many low none p).matchAt before (w ++ rest) = none := by
  rw [Pattern.matchAt_eq_none]
  intro d m
  obtain ⟨v, r, split, long, inside', _⟩ := matches_many.mp m
  simp only at split
  rcases List.append_eq_append_iff.mp split with ⟨extra, rfl, rest'⟩ | ⟨extra, rfl, _⟩
  · cases extra with
    | nil => simp at long; omega
    | cons y extra =>
        have outside := ended y (by simp [rest'])
        simp [inside' y (by simp)] at outside
  · simp only [List.length_append] at short; omega

theorem subFrom_many_outside (positive : 0 < low) {x : Char} (outside : p x = false)
    (before rest : Str) :
    subFrom (.many low none p) (fun _ => put) 0 before (x :: rest) =
      x :: subFrom (.many low none p) (fun _ => put) 0 (x :: before) rest :=
  subFrom_of_none (matchAt_many_outside positive outside before rest)

theorem subFrom_many_short {w : Str} (inside : ∀ x ∈ w, p x = true) (short : w.length < low)
    {rest : Str} (ended : ∀ x ∈ rest.head?, p x = false) (before : Str) :
    subFrom (.many low none p) (fun _ => put) 0 before (w ++ rest) =
      w ++ subFrom (.many low none p) (fun _ => put) 0 (w.reverse ++ before) rest := by
  induction w generalizing before with
  | nil => rfl
  | cons x w ih =>
      have none := matchAt_many_short inside short ended before
      rw [List.cons_append] at none ⊢
      rw [subFrom_of_none none, ih (fun y member => inside y (List.mem_cons_of_mem x member))
        (by simp only [List.length_cons] at short; omega)]
      simp

theorem subFrom_many_run (positive : 0 < low) {w : Str} (inside : ∀ x ∈ w, p x = true)
    {rest : Str} (ended : ∀ x ∈ rest.head?, p x = false) (before : Str) :
    subFrom (.many low none p) (fun _ => put) 0 before (w ++ rest) =
      (if low ≤ w.length then put else w) ++
        subFrom (.many low none p) (fun _ => put) 0 (w.reverse ++ before) rest := by
  by_cases long : low ≤ w.length
  · rw [if_pos long]
    exact subFrom_of_some (by rintro rfl; simp at long; omega)
      (matchAt_many before long inside ended) rfl
  · rw [if_neg long]
    exact subFrom_many_short inside (by omega) ended before

theorem dropWhile_head (text : Str) : ∀ x ∈ (text.dropWhile p).head?, p x = false := by
  intro x atHead
  have kept : text.dropWhile p ≠ [] := by rintro gone; simp [gone] at atHead
  rw [List.head?_eq_some_head kept] at atHead
  rw [← Option.some.inj atHead]
  exact List.head_dropWhile_not p kept

/-- A text is put together from characters outside a class and whole runs of it. -/
theorem run_induction {P : Str → Prop} (nil : P [])
    (outside : ∀ x t, p x = false → P t → P (x :: t))
    (run : ∀ w t, w ≠ [] → (∀ x ∈ w, p x = true) → (∀ x ∈ t.head?, p x = false) → P t → P (w ++ t)) (text : Str) :
    P text := by
  induction size : text.length using Nat.strong_induction_on generalizing text with
  | h n ih =>
      cases text with
      | nil => exact nil
      | cons x text =>
          cases first : p x with
          | false => exact outside x text first (ih text.length (by simp at size; omega) text rfl)
          | true =>
              have split := List.takeWhile_append_dropWhile (p := p) (l := x :: text)
              have shorter : ((x :: text).dropWhile p).length < n := by
                have total := congrArg List.length split
                simp only [List.length_append, List.takeWhile_cons_of_pos first,
                  List.length_cons] at total size ⊢
                omega
              rw [← split]
              exact run _ _ (by simp [first]) (fun y member => List.mem_takeWhile_imp member) (dropWhile_head _)
                (ih _ shorter _ rfl)

/-- Nothing of what stands before a position is read. -/
theorem subFrom_many_before (positive : 0 < low) (text before : Str) :
    subFrom (.many low none p) (fun _ => put) 0 before text = squeeze low p put text := by
  unfold squeeze sub
  generalize [] = other
  induction text using run_induction (p := p) generalizing before other with
  | nil => simp
  | outside x text outside ih =>
      rw [subFrom_many_outside positive outside, subFrom_many_outside positive outside, ih _ (x :: other)]
  | run w text _ inside ended ih =>
      rw [subFrom_many_run positive inside ended, subFrom_many_run positive inside ended, ih _ (w.reverse ++ other)]

@[simp] theorem squeeze_nil : squeeze low p put [] = [] := rfl

theorem squeeze_outside (positive : 0 < low) {x : Char} (outside : p x = false) (text : Str) :
    squeeze low p put (x :: text) = x :: squeeze low p put text := by
  rw [squeeze, sub, subFrom_many_outside positive outside, subFrom_many_before positive]

theorem squeeze_run (positive : 0 < low) {w : Str} (inside : ∀ x ∈ w, p x = true) {rest : Str}
    (ended : ∀ x ∈ rest.head?, p x = false) :
    squeeze low p put (w ++ rest) =
      (if low ≤ w.length then put else w) ++ squeeze low p put rest := by
  rw [squeeze, sub, subFrom_many_run positive inside ended, subFrom_many_before positive]

theorem squeeze_all (positive : 0 < low) {w : Str} (inside : ∀ x ∈ w, p x = true) :
    squeeze low p put w = if low ≤ w.length then put else w := by
  have run := @squeeze_run low p put positive w inside [] (by simp)
  simpa using run

/-- A character outside the class separates a text into independent parts. -/
theorem squeeze_append_outside (positive : 0 < low) {x : Char} (outside : p x = false)
    (g text : Str) :
    squeeze low p put (g ++ x :: text) = squeeze low p put g ++ x :: squeeze low p put text := by
  induction g using run_induction (p := p) with
  | nil => exact squeeze_outside positive outside text
  | outside y g first ih =>
      rw [List.cons_append, squeeze_outside positive first, squeeze_outside positive first, ih]
      rfl
  | run w g _ inside ended ih =>
      have endedThere : ∀ z ∈ (g ++ x :: text).head?, p z = false := by
        intro z atHead
        cases g with
        | nil =>
            obtain rfl : x = z := by simpa using atHead
            exact outside
        | cons a g => exact ended z (by simpa using atHead)
      rw [List.append_assoc, squeeze_run positive inside endedThere, squeeze_run positive inside ended, ih,
        List.append_assoc]

/-- Every character of the result was put there or was there. -/
theorem mem_squeeze (positive : 0 < low) {c : Char} {text : Str}
    (member : c ∈ squeeze low p put text) : c ∈ put ∨ c ∈ text := by
  induction text using run_induction (p := p) with
  | nil => exact .inr member
  | outside x text first ih =>
      rw [squeeze_outside positive first] at member
      rcases List.mem_cons.mp member with rfl | later
      · exact .inr List.mem_cons_self
      · exact (ih later).imp_right (List.mem_cons_of_mem x)
  | run w text _ inside ended ih =>
      rw [squeeze_run positive inside ended] at member
      rcases List.mem_append.mp member with inRun | later
      · split at inRun
        · exact .inl inRun
        · exact .inr (List.mem_append_left text inRun)
      · exact (ih later).imp_right (List.mem_append_right w)

/-- No character of the class is left where every run was replaced. -/
theorem mem_squeeze_one {c : Char} {text : Str} (member : c ∈ squeeze 1 p put text) :
    c ∈ put ∨ p c = false := by
  induction text using run_induction (p := p) with
  | nil => simp at member
  | outside x text first ih =>
      rw [squeeze_outside Nat.one_pos first] at member
      rcases List.mem_cons.mp member with rfl | later
      · exact .inr first
      · exact ih later
  | run w text some inside ended ih =>
      have long : 1 ≤ w.length := List.length_pos_iff.mpr some
      rw [squeeze_run Nat.one_pos inside ended, if_pos long] at member
      rcases List.mem_append.mp member with inRun | later
      · exact .inl inRun
      · exact ih later

end Nipoto.Text.Regex
