import Nipoto.Text.Content

/-! # A line break between two parts of a text

Where the line breaks of a text stand among its visible characters is known from
its content, up to the number of breaks at one place.
-/

namespace Nipoto.Text

/-- The characters that are not white space. -/
def visible (t : Str) : Str := t.filter fun c => !isSpace c

/-- The text has a line break that comes after what is visible of `upTo` and before
    what it shows beyond `reach`. -/
def BreakBetween (upTo reach text : Str) : Prop :=
  ∃ a b, text = a ++ '\n' :: b ∧ visible upTo <+: visible a ∧ visible a <+: visible reach

theorem breakBetween_index {upTo reach text : Str} :
    BreakBetween upTo reach text ↔ ∃ i ∈ List.range text.length, text[i]? = some '\n' ∧
      visible upTo <+: visible (text.take i) ∧ visible (text.take i) <+: visible reach := by
  constructor
  · rintro ⟨a, b, rfl, reached, within⟩
    exact ⟨a.length, by simp, by simp, by simpa using reached, by simpa using within⟩
  · rintro ⟨i, member, lineBreak, reached, within⟩
    have inside : i < text.length := List.mem_range.mp member
    refine ⟨text.take i, text.drop (i + 1), ?_, reached, within⟩
    rw [List.getElem?_eq_getElem inside] at lineBreak
    rw [← Option.some.inj lineBreak, List.cons_getElem_drop_succ, List.take_append_drop]

instance (upTo reach text : Str) : Decidable (BreakBetween upTo reach text) :=
  decidable_of_iff' _ breakBetween_index

theorem visible_append (a b : Str) : visible (a ++ b) = visible a ++ visible b := List.filter_append a b

theorem visible_eq_nil {t : Str} : visible t = [] ↔ Blank t := by simp [visible, Blank]

theorem visible_break (a b : Str) : visible (a ++ '\n' :: b) = visible a ++ visible b := by
  have space : isSpace '\n' = true := by decide
  simp [visible, space]

theorem visible_lstrip (t : Str) : visible (lstrip t) = visible t := by
  have gap : Blank (t.takeWhile isSpace) := fun c member => List.mem_takeWhile_imp member
  have whole : t.takeWhile isSpace ++ lstrip t = t := List.takeWhile_append_dropWhile
  have split := visible_append (t.takeWhile isSpace) (lstrip t)
  rw [whole, visible_eq_nil.mpr gap] at split
  exact split.symm

theorem visible_rstrip (t : Str) : visible (rstrip t) = visible t := by
  induction t using List.reverseRecOn with
  | nil => rfl
  | append_singleton t c ih =>
      cases space : isSpace c with
      | true =>
          have gap : visible [c] = [] := visible_eq_nil.mpr (by simpa [Blank] using space)
          rw [rstrip, List.rdropWhile_concat_pos _ _ _ space, visible_append, gap, List.append_nil]
          exact ih
      | false => rw [rstrip, List.rdropWhile_concat_neg _ _ _ (by simp [space])]

theorem visible_content (t : Str) : visible (content t).flatten = visible t := by
  induction t using line_induction with
  | single t noBreak =>
      have shown : visible (strip t) = visible t := by rw [strip, visible_rstrip, visible_lstrip]
      rw [content_line noBreak, ← shown]
      split
      · rename_i blank
        rw [blank]
        rfl
      · rw [List.flatten_singleton]
  | parted a b first second =>
      rw [content_break, List.flatten_append, visible_append, visible_break, first, second]

/-- Between two lines of the content there is a line break in the text. -/
theorem content_split {t : Str} {p q : List Str} (lines : content t = p ++ q) (above : p ≠ []) (below : q ≠ []) :
    ∃ a b, t = a ++ '\n' :: b ∧ content a = p ∧ content b = q := by
  induction t using line_induction generalizing p q with
  | single t noBreak =>
      have few : (content t).length ≤ 1 := by
        rw [content_line noBreak]
        split <;> simp
      have left := List.length_pos_iff.mpr above
      have right := List.length_pos_iff.mpr below
      rw [lines, List.length_append] at few
      omega
  | parted a b first second =>
      rw [content_break] at lines
      obtain ⟨m, rfl, split⟩ | ⟨m, split, rfl⟩ := List.append_eq_append_iff.mp lines
      · by_cases here : m = []
        · subst here
          exact ⟨a, b, rfl, by rw [List.append_nil], split⟩
        · obtain ⟨c, d, rfl, left, right⟩ := second split here below
          exact ⟨a ++ '\n' :: c, d, by simp, by rw [content_break, left], right⟩
      · by_cases here : m = []
        · subst here
          exact ⟨a, b, rfl, by rw [split, List.append_nil], rfl⟩
        · obtain ⟨c, d, rfl, left, right⟩ := first split above here
          exact ⟨c, d ++ '\n' :: b, by simp, left, by rw [content_break, right]⟩

theorem breakBetween_of_content {upTo reach s t : Str} (same : content s = content t) (begun : ¬ Blank upTo)
    (more : (visible reach).length < (visible t).length) (found : BreakBetween upTo reach s) :
    BreakBetween upTo reach t := by
  obtain ⟨a, b, rfl, reached, within⟩ := found
  have whole : visible (a ++ '\n' :: b) = visible t := by rw [← visible_content, same, visible_content]
  rw [visible_break] at whole
  have above : content a ≠ [] := by
    intro none
    rw [visible_eq_nil.mpr (content_eq_nil.mp none), List.prefix_nil, visible_eq_nil] at reached
    exact begun reached
  have below : content b ≠ [] := by
    intro none
    rw [visible_eq_nil.mpr (content_eq_nil.mp none), List.append_nil] at whole
    have short := within.length_le
    rw [whole] at short
    omega
  rw [content_break] at same
  obtain ⟨c, d, split, left, -⟩ := content_split same.symm above below
  have shown : visible c = visible a := by rw [← visible_content, left, visible_content]
  exact ⟨c, d, split, shown ▸ reached, shown ▸ within⟩

section Parts

variable {u p mid q v : Str}

/-- A break of a text stands outside each part without a break. -/
theorem break_outside {w a b : Str} (single : '\n' ∉ w) (split : u ++ (w ++ v) = a ++ '\n' :: b) :
    a <+: u ∨ u ++ w <+: a := by
  obtain ⟨m, rfl, rest⟩ | ⟨m, rfl, -⟩ := List.append_eq_append_iff.mp split
  · obtain ⟨k, rfl, -⟩ | ⟨k, rfl, later⟩ := List.append_eq_append_iff.mp rest
    · exact .inr ⟨k, by simp⟩
    · cases k with
      | nil => exact .inr (by simp)
      | cons c k =>
          obtain rfl := (List.cons.inj later).1
          simp at single
  · exact .inl ⟨m, rfl⟩

theorem breakBetween_iff (line : '\n' ∉ p) (shown : ¬ Blank p) (lineNext : '\n' ∉ q) (shownNext : ¬ Blank q) :
    BreakBetween (u ++ p) (u ++ p ++ mid) (u ++ p ++ mid ++ (q ++ v)) ↔ '\n' ∈ mid := by
  have some : 0 < (visible p).length := List.length_pos_iff.mpr fun none => shown (visible_eq_nil.mp none)
  have someNext : 0 < (visible q).length := List.length_pos_iff.mpr fun none => shownNext (visible_eq_nil.mp none)
  constructor
  · rintro ⟨a, b, split, reached, within⟩
    by_contra none
    have single : '\n' ∉ p ++ mid ++ q := by simp [line, none, lineNext]
    have reachedLength := reached.length_le
    have withinLength := within.length_le
    simp only [visible_append, List.length_append] at reachedLength withinLength
    obtain ⟨m, short⟩ | ⟨m, long⟩ := @break_outside u v _ a b single (by simpa using split)
    · have least := congrArg (List.length ∘ visible) short
      simp only [Function.comp, visible_append, List.length_append] at least
      omega
    · have most := congrArg (List.length ∘ visible) long
      simp only [Function.comp, visible_append, List.length_append] at most
      omega
  · intro inside
    obtain ⟨a, b, rfl⟩ := List.append_of_mem inside
    refine ⟨u ++ p ++ a, b ++ (q ++ v), by simp, ?_, ?_⟩
    · rw [visible_append (u ++ p)]
      exact List.prefix_append _ _
    · rw [← List.append_assoc, visible_break]
      exact List.prefix_append _ _

end Parts

end Nipoto.Text
