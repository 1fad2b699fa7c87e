import Nipoto.Text.Str

/-! # Backtracking regular expressions

The part of the `re` syntax that the source uses, with its leftmost, greedy,
first-alternative semantics. Repetition ranges over one character class, so
matching is structural and needs no fuel, and a lookaround reads a fixed number
of characters. `Matches` states what a pattern may consume; `follow` is the
backtracking search through these possibilities.
-/

namespace Nipoto.Text.Regex

/-- A position inside a text: what was read (nearest character first), what is
    left, and the captured groups (latest first). -/
structure Cursor where
  before : Str
  rest : Str
  groups : List (Nat × Str) := []
  deriving DecidableEq

namespace Cursor

def advance (c : Cursor) (n : Nat) : Cursor :=
  { c with before := (c.rest.take n).reverse ++ c.before, rest := c.rest.drop n }

/-- The text read between `c` and a later position. -/
def readUpTo (c later : Cursor) : Str := c.rest.take (c.rest.length - later.rest.length)

def group (c : Cursor) (index : Nat) : Str := (c.groups.lookup index).getD []

end Cursor

inductive Pattern where
  | empty
  /-- One character of a class. -/
  | one (p : Char → Bool)
  /-- `p{low,high}`, greedy; `high = none` is unbounded. -/
  | many (low : Nat) (high : Option Nat) (p : Char → Bool)
  | seq (a b : Pattern)
  | alt (a b : Pattern)
  | group (index : Nat) (a : Pattern)
  /-- `(?=p)`, or `(?!p)` when not `wanted`. -/
  | ahead (wanted : Bool) (p : Char → Bool)
  /-- `(?<=p{width})`, or `(?<!p{width})` when not `wanted`. -/
  | behind (wanted : Bool) (width : Nat) (p : Char → Bool)
  /-- `^` without flags. -/
  | start
  /-- `$` without flags: the end, or a line break that ends the text. -/
  | stop

def all (parts : List Pattern) : Pattern := parts.foldr .seq .empty

def literal (s : Str) : Pattern := all (s.map fun c => .one (· == c))

/-- An alternation of literal texts, tried from left to right. -/
def anyOf (options : List Str) : Pattern :=
  options.foldr (fun s rest => .alt (literal s) rest) (.one fun _ => false)

def seesAhead (p : Char → Bool) (c : Cursor) : Bool := c.rest.head?.any p

def seesBehind (width : Nat) (p : Char → Bool) (c : Cursor) : Bool :=
  decide (width ≤ c.before.length) && (c.before.take width).all p

/-- Longest repetition first. -/
def greedy (attempt : Nat → Option Cursor) (low : Nat) : Nat → Option Cursor
  | 0 => attempt low
  | extra + 1 => (attempt (low + extra + 1)).or (greedy attempt low extra)

/-- The number of characters a repetition may take at most. -/
def most (high : Option Nat) (p : Char → Bool) (c : Cursor) : Nat :=
  let run := (c.rest.takeWhile p).length
  high.elim run (min run)

/-- Match a pattern, then `next`; backtrack into the pattern while `next` fails. -/
def Pattern.follow : Pattern → (Cursor → Option Cursor) → Cursor → Option Cursor
  | .empty, next, c => next c
  | .one p, next, c => if seesAhead p c then next (c.advance 1) else none
  | .many low high p, next, c =>
      if most high p c < low then none
      else greedy (fun n => next (c.advance n)) low (most high p c - low)
  | .seq a b, next, c => a.follow (b.follow next) c
  | .alt a b, next, c => (a.follow next c).or (b.follow next c)
  | .group index a, next, c =>
      a.follow (fun d => next { d with groups := (index, c.readUpTo d) :: d.groups }) c
  | .ahead wanted p, next, c => if seesAhead p c = wanted then next c else none
  | .behind wanted width p, next, c => if seesBehind width p c = wanted then next c else none
  | .start, next, c => if c.before = [] then next c else none
  | .stop, next, c => if c.rest = [] ∨ c.rest = ['\n'] then next c else none

/-- The first match that begins right after `before`. -/
def Pattern.matchAt (pattern : Pattern) (before rest : Str) : Option Cursor :=
  pattern.follow some { before, rest }

/-- What a pattern may consume, whatever comes next. -/
def Pattern.Matches : Pattern → Cursor → Cursor → Prop
  | .empty, c, d => d = c
  | .one p, c, d => ∃ x r, c.rest = x :: r ∧ p x = true ∧ d = { c with before := x :: c.before, rest := r }
  | .many low high p, c, d => ∃ n, low ≤ n ∧ n ≤ most high p c ∧ d = c.advance n
  | .seq a b, c, d => ∃ e, a.Matches c e ∧ b.Matches e d
  | .alt a b, c, d => a.Matches c d ∨ b.Matches c d
  | .group index a, c, d =>
      ∃ e, a.Matches c e ∧ d = { e with groups := (index, c.readUpTo e) :: e.groups }
  | .ahead wanted p, c, d => seesAhead p c = wanted ∧ d = c
  | .behind wanted width p, c, d => seesBehind width p c = wanted ∧ d = c
  | .start, c, d => c.before = [] ∧ d = c
  | .stop, c, d => (c.rest = [] ∨ c.rest = ['\n']) ∧ d = c

theorem greedy_eq_none {attempt low extra} :
    greedy attempt low extra = none ↔ ∀ n, low ≤ n → n ≤ low + extra → attempt n = none := by
  induction extra with
  | zero =>
      constructor
      · intro failed n lower upper
        obtain rfl : n = low := by omega
        exact failed
      · exact fun failed => failed low le_rfl le_rfl
  | succ extra ih =>
      simp only [greedy, Option.or_eq_none_iff, ih]
      constructor
      · rintro ⟨longest, shorter⟩ n lower upper
        by_cases top : n = low + extra + 1
        · exact top ▸ longest
        · exact shorter n lower (by omega)
      · exact fun failed =>
          ⟨failed _ (by omega) (by omega), fun n lower upper => failed n lower (by omega)⟩

theorem greedy_eq_some {attempt low extra found} (h : greedy attempt low extra = some found) :
    ∃ n, low ≤ n ∧ n ≤ low + extra ∧ attempt n = some found := by
  induction extra with
  | zero => exact ⟨low, le_rfl, le_rfl, h⟩
  | succ extra ih =>
      rcases Option.or_eq_some_iff.mp h with longest | ⟨_, shorter⟩
      · exact ⟨low + extra + 1, by omega, by omega, longest⟩
      · obtain ⟨n, lower, upper, found⟩ := ih shorter
        exact ⟨n, lower, by omega, found⟩

theorem greedy_longest {attempt low extra found} (h : attempt (low + extra) = some found) :
    greedy attempt low extra = some found := by
  cases extra with
  | zero => exact h
  | succ extra => rw [greedy, ← Nat.add_assoc] at *; rw [h]; rfl

theorem advance_one {c : Cursor} {x r} (h : c.rest = x :: r) :
    c.advance 1 = { c with before := x :: c.before, rest := r } := by
  simp [Cursor.advance, h]

/-- Every result of the search comes from a possible match. -/
theorem Pattern.follow_sound (pattern : Pattern) {next c found}
    (h : pattern.follow next c = some found) : ∃ d, pattern.Matches c d ∧ next d = some found := by
  induction pattern generalizing next c with
  | empty => exact ⟨c, rfl, h⟩
  | one p =>
      simp only [follow, Option.ite_none_right_eq_some] at h
      cases rest : c.rest with
      | nil => simp [seesAhead, rest] at h
      | cons x r =>
          rw [advance_one rest] at h
          exact ⟨_, ⟨x, r, rest, by simpa [seesAhead, rest] using h.1, rfl⟩, h.2⟩
  | many low high p =>
      simp only [follow, Option.ite_none_left_eq_some] at h
      obtain ⟨n, lower, upper, found⟩ := greedy_eq_some h.2
      exact ⟨_, ⟨n, lower, by omega, rfl⟩, found⟩
  | seq a b iha ihb =>
      obtain ⟨e, first, h⟩ := iha h
      obtain ⟨d, second, h⟩ := ihb h
      exact ⟨d, ⟨e, first, second⟩, h⟩
  | alt a b iha ihb =>
      rcases Option.or_eq_some_iff.mp h with h | ⟨_, h⟩
      · obtain ⟨d, m, h⟩ := iha h
        exact ⟨d, .inl m, h⟩
      · obtain ⟨d, m, h⟩ := ihb h
        exact ⟨d, .inr m, h⟩
  | group index a ih =>
      obtain ⟨e, m, h⟩ := ih h
      exact ⟨_, ⟨e, m, rfl⟩, h⟩
  | ahead | behind | start | stop =>
      simp only [follow, Option.ite_none_right_eq_some] at h
      exact ⟨c, ⟨h.1, rfl⟩, h.2⟩

/-- The search misses no possible match. -/
theorem Pattern.follow_complete (pattern : Pattern) {next c}
    (h : pattern.follow next c = none) : ∀ d, pattern.Matches c d → next d = none := by
  induction pattern generalizing next c with
  | empty => rintro d rfl; exact h
  | one p =>
      rintro d ⟨x, r, rest, inside, rfl⟩
      simpa [follow, seesAhead, rest, inside, Cursor.advance] using h
  | many low high p =>
      rintro d ⟨n, lower, upper, rfl⟩
      simp only [follow, show ¬ most high p c < low by omega, if_false] at h
      exact greedy_eq_none.mp h n lower (by omega)
  | seq a b iha ihb =>
      rintro d ⟨e, first, second⟩
      exact ihb (iha h e first) d second
  | alt a b iha ihb =>
      obtain ⟨ha, hb⟩ := Option.or_eq_none_iff.mp h
      rintro d (m | m)
      · exact iha ha d m
      · exact ihb hb d m
  | group index a ih =>
      rintro d ⟨e, m, rfl⟩
      exact ih h e m
  | ahead | behind | start | stop =>
      rintro d ⟨holds, rfl⟩
      simpa [follow, holds] using h

theorem Pattern.matchAt_eq_none {pattern : Pattern} {before rest} :
    pattern.matchAt before rest = none ↔ ∀ d, ¬ pattern.Matches { before, rest } d := by
  constructor
  · intro h d m
    exact absurd (pattern.follow_complete h d m) (by simp)
  · intro h
    by_contra some
    obtain ⟨found, h'⟩ := Option.ne_none_iff_exists'.mp some
    obtain ⟨d, m, _⟩ := pattern.follow_sound h'
    exact h d m

theorem Pattern.matchAt_sound {pattern : Pattern} {before rest d}
    (h : pattern.matchAt before rest = some d) : pattern.Matches { before, rest } d := by
  obtain ⟨e, m, same⟩ := pattern.follow_sound h
  exact Option.some.inj same ▸ m

/-- Where only one match is possible the order of the search does not matter. -/
theorem Pattern.matchAt_of_unique {pattern : Pattern} {before rest d}
    (possible : pattern.Matches { before, rest } d)
    (unique : ∀ e, pattern.Matches { before, rest } e → e = d) :
    pattern.matchAt before rest = some d := by
  cases h : pattern.matchAt before rest with
  | none => exact absurd possible (matchAt_eq_none.mp h d)
  | some e => rw [unique e (matchAt_sound h)]

theorem matches_literal {s : Str} {c d : Cursor} :
    (literal s).Matches c d ↔
      ∃ r, c.rest = s ++ r ∧ d = { c with before := s.reverse ++ c.before, rest := r } := by
  induction s generalizing c with
  | nil =>
      constructor
      · rintro rfl; exact ⟨d.rest, rfl, rfl⟩
      · rintro ⟨r, rest, rfl⟩; cases c; simp_all [literal, all, Pattern.Matches]
  | cons x s ih =>
      constructor
      · rintro ⟨e, ⟨y, r, rest, inside, rfl⟩, more⟩
        obtain rfl := beq_iff_eq.mp inside
        obtain ⟨r', rest', rfl⟩ := ih.mp more
        simp only at rest'
        exact ⟨r', by simp [rest, rest'], by simp⟩
      · rintro ⟨r, rest, rfl⟩
        refine ⟨_, ⟨x, s ++ r, by simpa using rest, by simp, rfl⟩, ih.mpr ⟨r, rfl, by simp⟩⟩

theorem matches_anyOf {options : List Str} {c d : Cursor} :
    (anyOf options).Matches c d ↔ ∃ s ∈ options, (literal s).Matches c d := by
  induction options with
  | nil =>
      constructor
      · rintro ⟨x, r, rest, inside, _⟩; simp at inside
      · rintro ⟨s, member, _⟩; simp at member
  | cons s rest ih =>
      simp only [anyOf, List.foldr_cons, Pattern.Matches, List.mem_cons, exists_eq_or_imp]
      exact or_congr_right ih

theorem matches_many {low : Nat} {p : Char → Bool} {c d : Cursor} :
    (Pattern.many low none p).Matches c d ↔
      ∃ w r, c.rest = w ++ r ∧ low ≤ w.length ∧ (∀ x ∈ w, p x = true) ∧
        d = { c with before := w.reverse ++ c.before, rest := r } := by
  simp only [Pattern.Matches, most, Option.elim_none]
  constructor
  · rintro ⟨n, lower, upper, rfl⟩
    have short : n ≤ c.rest.length := upper.trans (List.takeWhile_prefix p).length_le
    refine ⟨c.rest.take n, c.rest.drop n, (List.take_append_drop n c.rest).symm, ?_, ?_, rfl⟩
    · rw [List.length_take]; omega
    · intro x member
      have inside : c.rest.take n = (c.rest.takeWhile p).take n :=
        (List.prefix_of_prefix_length_le (List.take_prefix n c.rest)
          ((List.take_prefix n _).trans (List.takeWhile_prefix p))
          (by simp only [List.length_take]; omega)).eq_of_length
            (by simp [short, upper])
      rw [inside] at member
      exact List.mem_takeWhile_imp (List.mem_of_mem_take member)
  · rintro ⟨w, r, rest, lower, inside, rfl⟩
    refine ⟨w.length, lower, ?_, ?_⟩
    · rw [rest, List.takeWhile_append_of_pos inside, List.length_append]; omega
    · simp [Cursor.advance, rest]

theorem matches_bounded {low high : Nat} {p : Char → Bool} {c d : Cursor}
    (possible : (Pattern.many low (some high) p).Matches c d) :
    ∃ w r, c.rest = w ++ r ∧ low ≤ w.length ∧ (∀ x ∈ w, p x = true) ∧
      d = { c with before := w.reverse ++ c.before, rest := r } := by
  obtain ⟨n, lower, upper, same⟩ := possible
  exact matches_many.mp ⟨n, lower, upper.trans (Nat.min_le_left _ _), same⟩

theorem bounded_matches {low high : Nat} {p : Char → Bool} {w r before : Str} {groups : List (Nat × Str)}
    (long : low ≤ w.length) (short : w.length ≤ high) (inside : ∀ x ∈ w, p x = true) :
    (Pattern.many low (some high) p).Matches { before, rest := w ++ r, groups }
      { before := w.reverse ++ before, rest := r, groups } := by
  refine ⟨w.length, long, ?_, by simp [Cursor.advance]⟩
  rw [most, Option.elim_some, List.takeWhile_append_of_pos inside, List.length_append]
  omega

theorem matches_optional {p : Char → Bool} {c d : Cursor} :
    (Pattern.many 0 (some 1) p).Matches c d ↔
      d = c ∨ ∃ x r, c.rest = x :: r ∧ p x = true ∧
        d = { c with before := x :: c.before, rest := r } := by
  obtain ⟨before, rest, groups⟩ := c
  simp only [Pattern.Matches, most, Option.elim_some]
  constructor
  · rintro ⟨n, -, upper, rfl⟩
    rcases Nat.eq_zero_or_pos n with rfl | positive
    · exact .inl (by simp [Cursor.advance])
    · obtain rfl : n = 1 := by omega
      cases rest with
      | nil => simp at upper
      | cons x rest =>
          cases inside : p x with
          | false => simp [inside] at upper
          | true => exact .inr ⟨x, rest, rfl, inside, by simp [Cursor.advance]⟩
  · rintro (rfl | ⟨x, r, rfl, inside, rfl⟩)
    · exact ⟨0, le_rfl, Nat.zero_le _, by simp [Cursor.advance]⟩
    · exact ⟨1, Nat.zero_le _, by simp [inside], by simp [Cursor.advance]⟩

theorem readUpTo_append {c d : Cursor} {w : Str} (h : c.rest = w ++ d.rest) : c.readUpTo d = w := by
  simp [Cursor.readUpTo, h]

/-- An unbounded repetition takes the whole run of its class. -/
theorem matchAt_many {low : Nat} {p : Char → Bool} (before : Str) {w rest : Str}
    (long : low ≤ w.length) (inside : ∀ x ∈ w, p x = true)
    (ended : ∀ x ∈ rest.head?, p x = false) :
    (Pattern.many low none p).matchAt before (w ++ rest) =
      some { before := w.reverse ++ before, rest } := by
  have run : (w ++ rest).takeWhile p = w := by
    rw [List.takeWhile_append_of_pos inside]
    cases rest with
    | nil => simp
    | cons x rest => simp [ended x rfl]
  have count : most none p { before, rest := w ++ rest } = w.length := by simp [most, run]
  simp only [Pattern.matchAt, Pattern.follow, count, show ¬ w.length < low by omega, if_false]
  exact greedy_longest (by simp [Cursor.advance, Nat.add_sub_cancel' long])

/-- `pattern.sub(repl, text)` from a position on. `skip` counts the characters of
    the last match that are still to be passed over. The patterns substituted
    here never match the empty text; such a match would be ignored. -/
def subFrom (pattern : Pattern) (repl : Cursor → Str) : Nat → Str → Str → Str
  | _, _, [] => []
  | skip + 1, before, x :: rest => subFrom pattern repl skip (x :: before) rest
  | 0, before, x :: rest =>
      match pattern.matchAt before (x :: rest) with
      | none => x :: subFrom pattern repl 0 (x :: before) rest
      | some d =>
          match (x :: rest).length - d.rest.length with
          | 0 => x :: subFrom pattern repl 0 (x :: before) rest
          | width + 1 => repl d ++ subFrom pattern repl width (x :: before) rest

def sub (pattern : Pattern) (repl : Cursor → Str) (text : Str) : Str :=
  subFrom pattern repl 0 [] text

@[simp] theorem subFrom_nil (pattern repl skip before) : subFrom pattern repl skip before [] = [] := by
  cases skip <;> rfl

theorem subFrom_skip (pattern repl before) (w rest : Str) :
    subFrom pattern repl w.length before (w ++ rest) =
      subFrom pattern repl 0 (w.reverse ++ before) rest := by
  induction w generalizing before with
  | nil => rfl
  | cons x w ih => simpa [subFrom] using ih (x :: before)

theorem subFrom_of_none {pattern : Pattern} {repl before x rest}
    (h : pattern.matchAt before (x :: rest) = none) :
    subFrom pattern repl 0 before (x :: rest) = x :: subFrom pattern repl 0 (x :: before) rest := by
  simp only [subFrom, h]

theorem subFrom_of_some {pattern : Pattern} {repl before d} {w rest : Str} (consumed : w ≠ [])
    (h : pattern.matchAt before (w ++ rest) = some d) (left : d.rest = rest) :
    subFrom pattern repl 0 before (w ++ rest) =
      repl d ++ subFrom pattern repl 0 (w.reverse ++ before) rest := by
  cases w with
  | nil => exact absurd rfl consumed
  | cons x w =>
      have width : (x :: (w ++ rest)).length - d.rest.length = w.length + 1 := by
        simp only [left, List.length_cons, List.length_append]; omega
      simp only [List.cons_append] at h ⊢
      simp only [subFrom, h, width]
      rw [subFrom_skip]
      simp

/-- Characters at which no match can begin are copied. -/
theorem subFrom_pass {pattern : Pattern} {repl} {w : Str}
    (never : ∀ x ∈ w, ∀ before rest, pattern.matchAt before (x :: rest) = none) (before rest : Str) :
    subFrom pattern repl 0 before (w ++ rest) =
      w ++ subFrom pattern repl 0 (w.reverse ++ before) rest := by
  induction w generalizing before with
  | nil => rfl
  | cons x w ih =>
      rw [List.cons_append, subFrom_of_none (never x List.mem_cons_self before _),
        ih (fun y member => never y (List.mem_cons_of_mem x member))]
      simp

/-- What no single replacement changes, whatever surrounds it, the substitution does not change. -/
theorem sub_keeps {β : Type} (f : Str → β) {pattern : Pattern} {repl : Cursor → Str}
    (each : ∀ before rest d, pattern.matchAt before rest = some d →
      ∃ w, rest = w ++ d.rest ∧ ∀ a b, f (a ++ (repl d ++ b)) = f (a ++ (w ++ b)))
    (a text : Str) : f (a ++ sub pattern repl text) = f (a ++ text) := by
  unfold sub
  generalize [] = before
  induction size : text.length using Nat.strong_induction_on generalizing before a text with
  | h n ih =>
      cases text with
      | nil => simp
      | cons x rest =>
          have copy : f (a ++ x :: subFrom pattern repl 0 (x :: before) rest) = f (a ++ x :: rest) := by
            have next := ih rest.length (by simp at size; omega) (a ++ [x]) rest (x :: before) rfl
            simpa using next
          cases found : pattern.matchAt before (x :: rest) with
          | none =>
              rw [subFrom_of_none found]
              exact copy
          | some d =>
              obtain ⟨w, split, same⟩ := each before (x :: rest) d found
              cases w with
              | nil =>
                  have width : (x :: rest).length - d.rest.length = 0 := by simp [split]
                  simp only [subFrom, found, width]
                  exact copy
              | cons y w =>
                  rw [split] at found ⊢
                  have shorter : d.rest.length < n := by
                    rw [← size, split, List.length_append, List.length_cons]
                    omega
                  rw [subFrom_of_some (List.cons_ne_nil y w) found rfl, same, ← List.append_assoc,
                    ih _ shorter (a ++ (y :: w)) d.rest _ rfl, List.append_assoc]

end Nipoto.Text.Regex
