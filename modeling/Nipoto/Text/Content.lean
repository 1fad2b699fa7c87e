import Mathlib.Data.List.Forall2
import Nipoto.Text.Lines
import Nipoto.Text.Squeeze

/-! # The content of a text

Its lines without surrounding white space and without the blank ones, in order.
Stripping a text, splitting it at blank lines and joining parts with line breaks
all keep the content.
-/

namespace Nipoto.Text

def content (t : Str) : List Str := ((lines t).map strip).filter (· ≠ [])

theorem content_nil : content [] = [] := rfl

theorem content_break (a b : Str) : content (a ++ '\n' :: b) = content a ++ content b := by
  simp only [content, lines_append, List.map_append, List.filter_append]

theorem content_line {l : Str} (single : '\n' ∉ l) :
    content l = if strip l = [] then [] else [strip l] := by
  by_cases blank : strip l = [] <;> simp [content, lines_whole single, blank]

theorem content_space {c : Char} (space : isSpace c = true) (t : Str) : content (c :: t) = content t := by
  by_cases atBreak : c = '\n'
  · subst atBreak
    exact content_break [] t
  · obtain ⟨rest, split⟩ := lines_eq t
    rw [content, lines_cons atBreak, split, content, split, List.modifyHead_cons, List.map_cons,
      strip_space space]
    rfl

theorem content_space_end {c : Char} (space : isSpace c = true) (t : Str) :
    content (t ++ [c]) = content t := by
  by_cases atBreak : c = '\n'
  · subst atBreak
    rw [content_break, content_nil, List.append_nil]
  · induction t using line_induction with
    | parted a b _ second => rw [List.append_assoc, List.cons_append, content_break, content_break, second]
    | single t noBreak =>
        have single : '\n' ∉ t ++ [c] := by simp [noBreak, Ne.symm atBreak]
        have same : strip (t ++ [c]) = strip t := by
          cases blank : t.all isSpace with
          | true =>
              have gap : Blank t := fun d member => List.all_eq_true.mp blank d member
              rw [strip_blank_append gap, strip_eq_nil.mpr gap, strip_eq_nil]
              simpa [Blank] using space
          | false =>
              have left : lstrip (t ++ [c]) = lstrip t ++ [c] := by
                have solid : ¬ (t.dropWhile isSpace).isEmpty = true := by
                  simpa [List.dropWhile_eq_nil_iff] using blank
                rw [lstrip, List.dropWhile_append, if_neg solid, lstrip]
              rw [strip, left, rstrip_append_blank _ (by simpa [Blank] using space), strip]
        rw [content_line single, content_line noBreak, same]

theorem content_lstrip (t : Str) : content (lstrip t) = content t := by
  induction t with
  | nil => rfl
  | cons c t ih =>
      cases space : isSpace c with
      | true => rw [content_space space, ← ih, lstrip, List.dropWhile_cons_of_pos space, lstrip]
      | false => rw [lstrip, List.dropWhile_cons_of_neg (by simp [space])]

theorem content_rstrip (t : Str) : content (rstrip t) = content t := by
  induction t using List.reverseRecOn with
  | nil => rfl
  | append_singleton t c ih =>
      cases space : isSpace c with
      | true => rw [content_space_end space, ← ih, rstrip, List.rdropWhile_concat_pos _ _ _ space, rstrip]
      | false => rw [rstrip, List.rdropWhile_concat_neg _ _ _ (by simp [space])]

@[simp] theorem content_strip (t : Str) : content (strip t) = content t := by
  rw [strip, content_rstrip, content_lstrip]

theorem content_eq_nil {t : Str} : content t = [] ↔ Blank t := by
  induction t using line_induction with
  | single t noBreak =>
      rw [content_line noBreak, ← strip_eq_nil]
      split <;> simp_all
  | parted a b first second =>
      have breakSpace : isSpace '\n' = true := by decide
      rw [content_break, List.append_eq_nil_iff, first, second]
      simp [Blank, or_imp, forall_and, breakSpace]

/-- A text that begins with a solid character has its first line first. -/
theorem content_head {c : Char} (solid : isSpace c = false) (rest : Str) :
    (content (c :: rest)).head? = some (strip (firstLine (c :: rest))) := by
  have inLine : c ≠ '\n' := by rintro rfl; exact absurd solid (by decide)
  have some : strip (firstLine (c :: rest)) ≠ [] := by
    rw [firstLine_cons inLine, strip_solid solid]
    exact List.cons_ne_nil _ _
  obtain ⟨more, split⟩ := lines_eq (c :: rest)
  simp [content, split, some]

theorem content_join {ls : List Str} (single : ∀ l ∈ ls, '\n' ∉ l) :
    content (join ['\n'] ls) = (ls.map strip).filter (· ≠ []) := by
  induction ls with
  | nil => rfl
  | cons l ls ih =>
      have here := content_line (single l List.mem_cons_self)
      have tail := ih fun m member => single m (List.mem_cons_of_mem l member)
      have joined : content (join ['\n'] (l :: ls)) = content l ++ content (join ['\n'] ls) := by
        cases ls with
        | nil => simp [join, content_nil]
        | cons m ls => rw [← content_break]; simp [join]
      rw [joined, tail, here, List.map_cons]
      by_cases blank : strip l = [] <;> simp [blank]

theorem content_join_paragraphs (ps : List Str) :
    content (join ['\n', '\n'] ps) = ps.flatMap content := by
  induction ps with
  | nil => rfl
  | cons p ps ih =>
      cases ps with
      | nil => simp [join]
      | cons q ps =>
          have split : join ['\n', '\n'] (p :: q :: ps) =
              p ++ '\n' :: ([] ++ '\n' :: join ['\n', '\n'] (q :: ps)) := by simp [join]
          rw [split, content_break, content_break, content_nil, ih]
          rfl

open Regex

/-- `pattern.split(text)` from a position on, with the piece read so far (nearest
    character first). -/
def splitFrom (pattern : Pattern) : Nat → Str → Str → Str → List Str
  | _, _, piece, [] => [piece.reverse]
  | skip + 1, before, piece, x :: rest => splitFrom pattern skip (x :: before) piece rest
  | 0, before, piece, x :: rest =>
      match pattern.matchAt before (x :: rest) with
      | none => splitFrom pattern 0 (x :: before) (x :: piece) rest
      | some d =>
          match (x :: rest).length - d.rest.length with
          | 0 => splitFrom pattern 0 (x :: before) (x :: piece) rest
          | width + 1 => piece.reverse :: splitFrom pattern width (x :: before) [] rest

def splitAt (pattern : Pattern) (text : Str) : List Str := splitFrom pattern 0 [] [] text

theorem splitFrom_skip (pattern : Pattern) (before piece w rest : Str) :
    splitFrom pattern w.length before piece (w ++ rest) =
      splitFrom pattern 0 (w.reverse ++ before) piece rest := by
  induction w generalizing before with
  | nil => rfl
  | cons x w ih => simpa [splitFrom] using ih (x :: before)

theorem content_breaks {w : Str} (breaks : ∀ c ∈ w, c = '\n') (nonempty : w ≠ []) (a b : Str) :
    content (a ++ (w ++ b)) = content a ++ content b := by
  induction w generalizing a with
  | nil => exact absurd rfl nonempty
  | cons c w ih =>
      obtain rfl := breaks c List.mem_cons_self
      cases w with
      | nil => exact content_break a b
      | cons d w =>
          have rest := ih (fun e member => breaks e (List.mem_cons_of_mem _ member)) (by simp) []
          rw [List.cons_append, content_break]
          exact congrArg _ rest

/-- Splitting where the pattern takes line breaks only loses no content. -/
theorem content_splitFrom {pattern : Pattern}
    (breaks : ∀ before rest d, pattern.matchAt before rest = some d →
      ∃ w, rest = w ++ d.rest ∧ ∀ c ∈ w, c = '\n') (before piece text : Str) :
    (splitFrom pattern 0 before piece text).flatMap content = content (piece.reverse ++ text) := by
  induction size : text.length using Nat.strong_induction_on generalizing before piece text with
  | h n ih =>
      cases text with
      | nil => simp [splitFrom]
      | cons x rest =>
          have copy : (splitFrom pattern 0 (x :: before) (x :: piece) rest).flatMap content =
              content (piece.reverse ++ x :: rest) := by
            rw [ih rest.length (by simp at size; omega) _ _ _ rfl]
            simp
          cases found : pattern.matchAt before (x :: rest) with
          | none => simpa only [splitFrom, found] using copy
          | some d =>
              obtain ⟨w, split, only⟩ := breaks _ _ _ found
              cases w with
              | nil =>
                  have width : (x :: rest).length - d.rest.length = 0 := by
                    rw [split]
                    simp
                  simpa only [splitFrom, found, width] using copy
              | cons y w =>
                  have tail : rest = w ++ d.rest := (List.cons.inj split).2
                  obtain rfl : x = y := (List.cons.inj split).1
                  have width : (x :: rest).length - d.rest.length = w.length + 1 := by
                    simp only [tail, List.length_cons, List.length_append]
                    omega
                  have shorter : d.rest.length < n := by
                    simp only [tail, List.length_cons, List.length_append] at size
                    omega
                  simp only [splitFrom, found, width]
                  rw [tail, splitFrom_skip, List.flatMap_cons, ih _ shorter _ _ _ rfl]
                  exact (content_breaks only (by simp) piece.reverse d.rest).symm

theorem content_splitAt {pattern : Pattern}
    (breaks : ∀ before rest d, pattern.matchAt before rest = some d →
      ∃ w, rest = w ++ d.rest ∧ ∀ c ∈ w, c = '\n') (text : Str) :
    (splitAt pattern text).flatMap content = content text := content_splitFrom breaks [] [] text

/-- The strings of the first list stand in strings of the second, in order. -/
abbrev Occurs (parts whole : List Str) : Prop := List.SublistForall₂ (· <:+: ·) parts whole

theorem occurs_append {a b c d : List Str} (first : Occurs a c) (second : Occurs b d) :
    Occurs (a ++ b) (c ++ d) := by
  induction first with
  | nil =>
      rename_i whole
      induction whole with
      | nil => exact second
      | cons x whole ih => exact .cons_right ih
  | cons here _ ih => exact .cons here ih
  | cons_right _ ih => exact .cons_right ih

theorem occurs_flatMap {β : Type} {items : List β} {parts whole : β → List Str}
    (each : ∀ item ∈ items, Occurs (parts item) (whole item)) :
    Occurs (items.flatMap parts) (items.flatMap whole) := by
  induction items with
  | nil => exact .nil
  | cons item items ih =>
      have rest := ih fun later member => each later (List.mem_cons_of_mem item member)
      exact occurs_append (each item List.mem_cons_self) rest

instance infix_refl : Std.Refl fun part whole : Str => part <:+: whole := ⟨List.infix_refl⟩

instance infix_trans : IsTrans Str fun part whole => part <:+: whole := ⟨fun _ _ _ => List.IsInfix.trans⟩

theorem occurs_trans {a b c : List Str} (first : Occurs a b) (second : Occurs b c) : Occurs a c :=
  IsTrans.trans a b c first second

theorem occurs_of_sublist {a b : List Str} (sub : a.Sublist b) : Occurs a b := sub.sublistForall₂

/-- What stands in a text and has no line break stands in one of its lines. -/
theorem occurs_in_line {part text : Str} (single : '\n' ∉ part) (inside : part <:+: text) :
    ∃ line ∈ lines text, part <:+: line := by
  obtain ⟨before, after, rfl⟩ := inside
  induction before with
  | nil =>
      obtain ⟨rest, split⟩ := lines_eq (part ++ after)
      have opens : firstLine (part ++ after) = part ++ firstLine after := by
        rw [firstLine, List.takeWhile_append_of_pos, firstLine]
        intro c member
        simp only [bne_iff_ne, ne_eq]
        rintro rfl
        exact single member
      refine ⟨firstLine (part ++ after), ?_, opens ▸ (List.prefix_append part _).isInfix⟩
      rw [List.nil_append, split]
      exact List.mem_cons_self
  | cons c before ih =>
      obtain ⟨line, member, inLine⟩ := ih
      rw [List.append_assoc] at member
      by_cases atBreak : c = '\n'
      · subst atBreak
        refine ⟨line, ?_, inLine⟩
        rw [List.append_assoc, List.cons_append, lines_break]
        exact List.mem_cons_of_mem _ member
      · obtain ⟨rest, split⟩ := lines_eq (before ++ (part ++ after))
        rw [List.append_assoc, List.cons_append, lines_cons atBreak, split, List.modifyHead_cons]
        rw [split] at member
        cases List.mem_cons.mp member with
        | inl first => exact ⟨_, List.mem_cons_self, inLine.trans (first ▸ (List.suffix_cons c line).isInfix)⟩
        | inr later => exact ⟨line, List.mem_cons_of_mem _ later, inLine⟩

/-- Every line of the content stands in a line of the text, in order. -/
theorem content_in_lines (t : Str) : Occurs (content t) (lines t) := by
  have every : ∀ ls : List Str, Occurs ((ls.map strip).filter (· ≠ [])) ls := by
    intro ls
    induction ls with
    | nil => exact .nil
    | cons l ls ih =>
        by_cases blank : strip l = []
        · simpa [blank] using List.SublistForall₂.cons_right ih
        · simpa [blank] using List.SublistForall₂.cons (strip_isInfix l) ih
  exact every (lines t)

end Nipoto.Text
