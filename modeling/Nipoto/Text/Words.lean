import Nipoto.Text.Lines

/-! # The words of a text

Words are separated by white space. Two texts that touch without it share a word.
-/

namespace Nipoto.Text

/-- `text.split()`. -/
def words (t : Str) : List Str := (t.splitOnP isSpace).filter (· ≠ [])

theorem words_nil : words [] = [] := by simp [words]

theorem words_space {c : Char} (space : isSpace c = true) (a b : Str) : words (a ++ c :: b) = words a ++ words b := by
  simp only [words, List.splitOnP_append_cons a b space, List.filter_append]

theorem words_blank_append {w : Str} (blank : Blank w) (t : Str) : words (w ++ t) = words t := by
  induction w with
  | nil => rfl
  | cons c w ih =>
      have later := ih fun d member => blank d (List.mem_cons_of_mem c member)
      have split := words_space (blank c List.mem_cons_self) [] (w ++ t)
      rw [List.nil_append, words_nil, List.nil_append, later] at split
      exact split

theorem words_gap {w : Str} (blank : Blank w) (some : w ≠ []) (a b : Str) :
    words (a ++ (w ++ b)) = words a ++ words b := by
  cases w with
  | nil => exact absurd rfl some
  | cons c w =>
      have later : Blank w := fun d member => blank d (List.mem_cons_of_mem c member)
      rw [List.cons_append, words_space (blank c List.mem_cons_self), words_blank_append later]

theorem words_append_blank (t : Str) {w : Str} (blank : Blank w) : words (t ++ w) = words t := by
  by_cases some : w = []
  · rw [some, List.append_nil]
  · have split := words_gap blank some t []
    rwa [List.append_nil, words_nil, List.append_nil] at split

theorem words_strip (t : Str) : words (strip t) = words t := by
  have front : Blank (t.takeWhile isSpace) := fun c member => List.mem_takeWhile_imp member
  have whole : t.takeWhile isSpace ++ lstrip t = t := List.takeWhile_append_dropWhile
  have back : Blank ((lstrip t).rtakeWhile isSpace) := fun c member => List.mem_rtakeWhile_imp member
  have left : rstrip (lstrip t) ++ (lstrip t).rtakeWhile isSpace = lstrip t := List.rdropWhile_append_rtakeWhile
  rw [strip, ← words_append_blank _ back, left, ← words_blank_append front, whole]

/-- The text begins with a visible character. -/
def beginsSolid (t : Str) : Bool := t.head?.any fun c => !isSpace c

theorem length_words_solid {c : Char} (solid : isSpace c = false) (t : Str) :
    (words (c :: t)).length = (words t).length + if beginsSolid t then 0 else 1 := by
  have single : words [c] = [[c]] := by simp [words, List.splitOnP_cons_eq_if_modifyHead, solid]
  cases t with
  | nil => simp [single, words_nil, beginsSolid]
  | cons d t =>
      cases space : isSpace d with
      | true =>
          have apart := words_space space [c] t
          have behind := words_space space [] t
          rw [List.nil_append, words_nil, List.nil_append] at behind
          rw [List.singleton_append] at apart
          simp [apart, behind, single, beginsSolid, space, Nat.add_comm]
      | false =>
          -- The next character begins the same word.
          obtain ⟨first, rest, split⟩ := List.exists_cons_of_ne_nil (List.splitOnP_ne_nil isSpace t)
          simp [words, List.splitOnP_cons_eq_if_modifyHead, solid, space, split, beginsSolid]

theorem words_eq_nil {t : Str} : words t = [] ↔ Blank t := by
  constructor
  · intro none
    induction t with
    | nil => simp [Blank]
    | cons c t ih =>
        cases space : isSpace c with
        | true =>
            have skip := words_space space [] t
            rw [List.nil_append, words_nil, List.nil_append, none] at skip
            simpa [Blank, space] using ih skip.symm
        | false =>
            have count := length_words_solid space t
            rw [none, List.length_nil] at count
            have begins : beginsSolid t = true := by
              by_contra other
              rw [if_neg other] at count
              omega
            have blank := ih (List.length_eq_zero_iff.mp (by omega))
            cases t with
            | nil => simp [beginsSolid] at begins
            | cons d t => simp [beginsSolid, blank d List.mem_cons_self] at begins
  · intro blank
    have split := words_append_blank [] blank
    rwa [List.nil_append, words_nil] at split

/-- Where two texts touch, two words become one. -/
theorem length_words_touching {a b : Str} (last : ∃ c ∈ a.getLast?, isSpace c = false)
    (first : beginsSolid b = true) : (words (a ++ b)).length + 1 = (words a).length + (words b).length := by
  induction a with
  | nil => simp at last
  | cons c a ih =>
      cases a with
      | nil =>
          have solid : isSpace c = false := by simpa using last
          rw [List.singleton_append, length_words_solid solid, length_words_solid solid, first, words_nil]
          simp [beginsSolid, Nat.add_comm]
      | cons d a =>
          have later := ih (by simpa using last)
          cases space : isSpace c with
          | true =>
              have gap : Blank [c] := by simpa [Blank] using space
              have skip := words_blank_append gap (d :: a ++ b)
              have skipLeft := words_blank_append gap (d :: a)
              rw [List.singleton_append] at skip skipLeft
              rw [List.cons_append, skip, skipLeft]
              exact later
          | false =>
              have same : beginsSolid (d :: a ++ b) = beginsSolid (d :: a) := rfl
              rw [List.cons_append, length_words_solid space, length_words_solid space, same]
              omega

end Nipoto.Text
