import Nipoto.Retrieval.Clean
import Nipoto.Text.Content

/-! # Tidying keeps the content

`tidy` takes white space from the ends of lines and from the ends of the text,
and blank lines. The content of a text has none of these.
-/

namespace Nipoto.Clean

open Text Text.Regex

theorem content_blank_end (a : Str) {w : Str} (blank : Blank w) : content (a ++ w) = content a := by
  induction w generalizing a with
  | nil => rw [List.append_nil]
  | cons c w ih =>
      have here := content_space_end (blank c List.mem_cons_self) a
      have later := ih (a ++ [c]) fun d member => blank d (List.mem_cons_of_mem c member)
      rw [List.append_assoc] at later
      exact later.trans here

theorem content_trailingSpace (t : Str) : content (sub trailingSpace (fun _ => ['\n']) t) = content t := by
  apply sub_keeps content _ []
  intro before rest d found
  obtain ⟨e, run, f, ⟨x, r, here, isBreak, rfl⟩, same⟩ := Pattern.matchAt_sound found
  obtain ⟨w, r', split, -, inside, rfl⟩ := matches_many.mp run
  obtain rfl : d = _ := same
  obtain rfl : x = '\n' := by simpa using isBreak
  simp only at split here
  refine ⟨w ++ ['\n'], by simp [split, here], ?_⟩
  intro a b
  have blank : Blank w := by
    intro c member
    have spelled := inside c member
    simp only [Bool.or_eq_true, beq_iff_eq] at spelled
    cases spelled with
    | inl space => exact space ▸ by decide
    | inr tab => exact tab ▸ by decide
  have kept := content_break (a ++ w) b
  rw [content_blank_end a blank, ← content_break] at kept
  simpa using kept.symm

theorem content_multiNewline (t : Str) :
    content (sub multiNewline (fun _ => ['\n', '\n']) t) = content t := by
  apply sub_keeps content _ []
  intro before rest d found
  obtain ⟨w, r, split, long, inside, rfl⟩ := matches_many.mp (Pattern.matchAt_sound found)
  have some : w ≠ [] := List.ne_nil_of_length_pos (by omega)
  refine ⟨w, split, ?_⟩
  intro a b
  rw [content_breaks (fun c member => by simpa using inside c member) some]
  exact content_breaks (by simp) (by simp) a b

theorem strip_tidyLine (line : Str) : strip (tidyLine line) = strip line := by
  simp only [tidyLine]
  split
  · exact strip_rstrip line
  · exact strip_strip line

theorem content_tidy (t : Str) : content (tidy t) = content t := by
  have single : ∀ l ∈ (lines (sub multiNewline (fun _ => ['\n', '\n'])
      (sub trailingSpace (fun _ => ['\n']) t))).map tidyLine, '\n' ∉ l := by
    intro l member lineBreak
    obtain ⟨line, known, rfl⟩ := List.mem_map.mp member
    apply lines_single known
    simp only [tidyLine] at lineBreak
    split at lineBreak
    · exact (rstrip_isPrefix line).subset lineBreak
    · exact (strip_isInfix line).subset lineBreak
  rw [tidy, content_strip, content_join single, List.map_map, show strip ∘ tidyLine = strip from funext strip_tidyLine]
  exact (content_multiNewline _).trans (content_trailingSpace t)

theorem content_unixBreaks (t : Str) : content (unixBreaks t) = content t := by
  have every : ∀ a, content (a ++ unixBreaks t) = content (a ++ t) := by
    fun_induction unixBreaks t with
    | case1 rest ih =>
        intro a
        have carriage : Blank ['\r'] := by decide
        have ended : content (a ++ '\r' :: '\n' :: rest) = content (a ++ '\n' :: rest) := by
          have split := content_break (a ++ ['\r']) rest
          rw [content_blank_end a carriage, ← content_break] at split
          simpa using split
        rw [ended]
        simpa using ih (a ++ ['\n'])
    | case2 c rest _ ih =>
        intro a
        simpa using ih (a ++ [c])
    | case3 => exact fun _ => rfl
  exact every []

/-- A text that does not look like HTML keeps its content. -/
theorem content_clean_plain {body : Str} (plain : looksLikeHtml body = false) (parse : Str → List Event) :
    content (clean parse body) = content body := by
  rw [clean]
  split
  · rename_i empty
    rw [empty]
  · rw [if_neg (by simp [plain]), content_tidy, content_unixBreaks]

theorem fold_single (run : Str) : '\n' ∉ sub Extractor.whitespaceRun (fun _ => [' ']) run := by
  intro member
  cases mem_squeeze_one member with
  | inl space => exact absurd space (by decide)
  | inr solid => exact absurd solid (by decide)

/-- What does not depend on how much white space there is at one place survives the folding. -/
theorem fold_keeps {β : Type} (f : Str → β)
    (each : ∀ a w b, Blank w → w ≠ [] → f (a ++ ([' '] ++ b)) = f (a ++ (w ++ b))) (a run : Str) :
    f (a ++ sub Extractor.whitespaceRun (fun _ => [' ']) run) = f (a ++ run) := by
  apply sub_keeps f
  intro before rest d found
  obtain ⟨w, r, split, long, inside, rfl⟩ := matches_many.mp (Pattern.matchAt_sound found)
  have blank : Blank w := by
    intro c member
    have folded := inside c member
    simp only [Bool.or_eq_true, beq_iff_eq] at folded
    obtain ((rfl | rfl) | rfl) | rfl := folded <;> decide
  exact ⟨w, split, fun a b => each a w b blank (List.ne_nil_of_length_pos (by omega))⟩

end Nipoto.Clean
