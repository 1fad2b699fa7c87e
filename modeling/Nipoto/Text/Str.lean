import Mathlib.Data.List.DropRight
import Mathlib.Data.List.Infix

/-! # Strings as code point sequences

The string methods of the source's language over `List Char`. The method names
are the language's own; `isSpace` is the class behind `str.isspace`, `str.strip`
and `\s` alike.
-/

namespace Nipoto.Text

abbrev Str := List Char

/-- A check of the characters of a text goes through the text, not through all characters. -/
instance forallMemDecidable (p : Char → Prop) [DecidablePred p] (s : Str) : Decidable (∀ c ∈ s, p c) :=
  List.decidableBAll p s

instance existsMemDecidable (p : Char → Prop) [DecidablePred p] (s : Str) : Decidable (∃ c ∈ s, p c) :=
  List.decidableBEx p s

instance forallMemOptionDecidable (p : Char → Prop) [DecidablePred p] (o : Option Char) :
    Decidable (∀ c ∈ o, p c) :=
  match o with
  | none => .isTrue (by simp)
  | some c => decidable_of_iff (p c) (by simp)

instance memDecidable (s : Str) (options : List Str) : Decidable (s ∈ options) := inferInstance

/-- The white space of `str.isspace`: bidirectional type WS, B or S, or category Zs. -/
def isSpace (c : Char) : Bool :=
  let n := c.toNat
  (9 ≤ n && n ≤ 13) || (28 ≤ n && n ≤ 32) || n == 0x85 || n == 0xA0 || n == 0x1680 ||
    (0x2000 ≤ n && n ≤ 0x200A) || n == 0x2028 || n == 0x2029 || n == 0x202F ||
    n == 0x205F || n == 0x3000

def lstrip (s : Str) : Str := s.dropWhile isSpace

def rstrip (s : Str) : Str := s.rdropWhile isSpace

def strip (s : Str) : Str := rstrip (lstrip s)

/-- `text.split("\n")`. -/
def lines (s : Str) : List Str := s.splitOn '\n'

/-- `sep.join(parts)`. -/
def join (sep : Str) (parts : List Str) : Str := sep.intercalate parts

/-- `text.split("\n", 1)[0]`. -/
def firstLine (s : Str) : Str := s.takeWhile (· != '\n')

/-- `needle in haystack`. -/
def contains (needle haystack : Str) : Bool := decide (needle <:+: haystack)

/-- `text.replace(old, new)` for a one-character `old`. -/
def replaceChar (old : Char) (new : Str) (s : Str) : Str :=
  s.flatMap fun c => if c = old then new else [c]

/-- Nothing but white space. -/
def Blank (s : Str) : Prop := ∀ c ∈ s, isSpace c = true

instance (s : Str) : Decidable (Blank s) := inferInstanceAs (Decidable (∀ c ∈ s, _))

theorem lstrip_suffix (s : Str) : lstrip s <:+ s := List.dropWhile_suffix _

theorem rstrip_isPrefix (s : Str) : rstrip s <+: s := List.rdropWhile_prefix isSpace s

theorem strip_isInfix (s : Str) : strip s <:+: s :=
  (rstrip_isPrefix (lstrip s)).isInfix.trans (lstrip_suffix s).isInfix

theorem lstrip_eq_nil {s : Str} : lstrip s = [] ↔ Blank s := List.dropWhile_eq_nil_iff

theorem rstrip_eq_nil {s : Str} : rstrip s = [] ↔ Blank s := List.rdropWhile_eq_nil_iff

theorem strip_eq_nil {s : Str} : strip s = [] ↔ Blank s := by
  rw [strip, rstrip_eq_nil]
  constructor
  · intro blank c member
    by_contra solid
    have kept : lstrip s ≠ [] := fun gone => solid (lstrip_eq_nil.mp gone c member)
    have head : isSpace ((lstrip s).head kept) = false := List.head_dropWhile_not isSpace kept
    rw [blank _ (List.head_mem kept)] at head
    exact absurd head (by simp)
  · intro blank c member
    exact blank c ((lstrip_suffix s).subset member)

theorem strip_of_trimmed {s : Str} (first : ∀ c ∈ s.head?, isSpace c = false)
    (last : ∀ c ∈ s.getLast?, isSpace c = false) : strip s = s := by
  have left : lstrip s = s := by
    cases s with
    | nil => rfl
    | cons c t => simp [lstrip, first c rfl]
  rw [strip, left, rstrip, List.rdropWhile_eq_self_iff]
  intro nonempty
  simp [last _ (List.getLast?_eq_some_getLast nonempty)]

theorem strip_last {s : Str} : ∀ c ∈ (strip s).getLast?, isSpace c = false := by
  intro c atEnd
  obtain ⟨nonempty, rfl⟩ := List.mem_getLast?_eq_getLast atEnd
  exact Bool.eq_false_iff.mpr (List.rdropWhile_last_not isSpace (lstrip s) nonempty)

theorem strip_head {s : Str} : ∀ c ∈ (strip s).head?, isSpace c = false := by
  intro c atStart
  have nonempty : strip s ≠ [] := by rintro gone; simp [gone] at atStart
  have kept : lstrip s ≠ [] := fun gone => nonempty (by simp [strip, gone, rstrip])
  have same : (lstrip s).head kept = c := by
    obtain ⟨tail, split⟩ := rstrip_isPrefix (lstrip s)
    have atStart' : (strip s).head nonempty = c := by
      rw [List.head?_eq_some_head nonempty] at atStart
      exact Option.some.inj atStart
    rw [← atStart']
    exact (List.IsPrefix.head ⟨tail, split⟩ nonempty).symm
  rw [← same]
  exact List.head_dropWhile_not isSpace kept

theorem strip_strip (s : Str) : strip (strip s) = strip s :=
  strip_of_trimmed strip_head strip_last

theorem infix_lstrip {t s : Str} (first : ∀ c ∈ t.head?, isSpace c = false) (inside : t <:+: s) :
    t <:+: lstrip s := by
  cases t with
  | nil => exact List.nil_infix
  | cons c t =>
      obtain ⟨before, after, rfl⟩ := inside
      induction before with
      | nil => exact ⟨[], after, by simp [lstrip, first c rfl]⟩
      | cons d before ih =>
          cases space : isSpace d with
          | true => simpa [lstrip, space] using ih
          | false => exact ⟨d :: before, after, by simp [lstrip, space]⟩

/-- Stripping takes nothing from a part that has solid ends. -/
theorem infix_strip {t s : Str} (trimmed : strip t = t) (inside : t <:+: s) : t <:+: strip s := by
  have left : t <:+: lstrip s := infix_lstrip (fun c atStart => strip_head c (trimmed.symm ▸ atStart)) inside
  have atEnd : ∀ c ∈ t.reverse.head?, isSpace c = false := by
    rw [List.head?_reverse]
    exact fun c last => strip_last c (trimmed.symm ▸ last)
  exact List.reverse_infix.mp (by
    rw [strip, rstrip, List.rdropWhile, List.reverse_reverse]
    exact infix_lstrip atEnd (List.reverse_infix.mpr left))

theorem lines_ne_nil (s : Str) : lines s ≠ [] := List.splitOn_ne_nil _ _

theorem lines_append (a b : Str) : lines (a ++ '\n' :: b) = lines a ++ lines b := List.splitOn_append_cons_self a b

theorem lines_whole {line : Str} (single : '\n' ∉ line) : lines line = [line] := List.splitOn_eq_singleton single

theorem firstLine_isPrefix (s : Str) : firstLine s <+: s := List.takeWhile_prefix _

theorem firstLine_append_line (s t : Str) : firstLine (s ++ '\n' :: t) = firstLine s := by
  induction s with
  | nil => rfl
  | cons c s ih =>
      by_cases atBreak : c = '\n'
      · simp [firstLine, atBreak]
      · simpa [firstLine, atBreak] using ih

theorem firstLine_append_break {s : Str} (single : '\n' ∉ s) (t : Str) :
    firstLine (s ++ '\n' :: t) = s := by
  rw [firstLine, List.takeWhile_append_of_pos]
  · simp
  · intro c member
    simp only [bne_iff_ne, ne_eq]
    rintro rfl
    exact single member

/-- A list is without elements of a class, or it is cut at the first of them. -/
theorem split_induction {α : Type} {p : α → Bool} {P : List α → Prop}
    (whole : ∀ a, (∀ x ∈ a, p x = false) → P a)
    (parted : ∀ a c b, (∀ x ∈ a, p x = false) → p c = true → P a → (∀ t, t.length ≤ b.length → P t) →
      P (a ++ c :: b)) (t : List α) : P t := by
  induction size : t.length using Nat.strong_induction_on generalizing t with
  | h n ih =>
      have split := List.takeWhile_append_dropWhile (p := (!p ·)) (l := t)
      have outside : ∀ x ∈ t.takeWhile (!p ·), p x = false :=
        fun x member => by simpa using List.mem_takeWhile_imp member
      cases rest : t.dropWhile (!p ·) with
      | nil =>
          rw [rest, List.append_nil] at split
          exact split ▸ whole _ outside
      | cons c b =>
          have found : p c = true := by
            have first := List.head?_dropWhile_not (!p ·) t
            simpa [rest] using first
          rw [rest] at split
          have long := congrArg List.length split
          rw [List.length_append, List.length_cons] at long
          rw [← split]
          exact parted _ c b outside found (whole _ outside) fun t' short => ih t'.length (by omega) t' rfl

/-- A text is one line, or it is parted at a line break. -/
theorem line_induction {P : Str → Prop} (single : ∀ l, '\n' ∉ l → P l)
    (parted : ∀ a b, P a → P b → P (a ++ '\n' :: b)) (t : Str) : P t := by
  induction t using split_induction (p := (· == '\n')) with
  | whole a outside => exact single a fun member => by simpa using outside '\n' member
  | parted a c b _ found left right =>
      obtain rfl : c = '\n' := beq_iff_eq.mp found
      exact parted a b left (right b le_rfl)

end Nipoto.Text
