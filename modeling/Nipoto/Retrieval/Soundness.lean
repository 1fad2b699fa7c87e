import Nipoto.Retrieval.SecondPass
import Nipoto.Retrieval.Stability

/-! # What the half-space rules may do between two characters

Two words are never fused, and a half-space in the output stands where one stood
before or where a rule about the two words put it.
-/

namespace Nipoto.Normalize

open Text Text.Gaps

variable {l g r : Str}

theorem dropZwnj_ne_nil {c : Char} (member : c ∈ g) (space : isSpace c = true) : dropZwnj g ≠ [] := by
  intro gone
  rw [dropZwnj_eq_nil.mp gone c member] at space
  exact absurd space (by decide)

theorem finalGap_ne_nil {c : Char} (member : c ∈ g) (space : isSpace c = true) : finalGap l g r ≠ [] := by
  by_cases half : IsHalfSpace l g r
  · simp [finalGap_of_half half]
  · rw [finalGap_of_blank half, ← tidyGap_dropZwnj]
    exact mt tidyGap_eq_nil.mp (dropZwnj_ne_nil member space)

theorem half_of_zwnj (member : zwnj ∈ finalGap l g r) : IsHalfSpace l g r := by
  by_contra other
  rw [finalGap_of_blank other] at member
  obtain none | single | ⟨n, breaks⟩ := blankGap_shape (dropZwnj g)
  · simp [none] at member
  · rw [single] at member
    exact absurd member (by decide)
  · rw [breaks] at member
    exact absurd (List.eq_of_mem_replicate member) (by decide)

/-- White space in a final gap comes from white space in the source. -/
theorem space_of_finalGap (gap : IsGap isSep g) {c : Char} (member : c ∈ finalGap l g r) (space : isSpace c = true) :
    ∃ d ∈ g, isSpace d = true := by
  by_cases half : IsHalfSpace l g r
  · rw [finalGap_of_half half] at member
    obtain rfl := List.mem_singleton.mp member
    exact absurd space (by decide)
  · rw [finalGap_of_blank half, ← tidyGap_dropZwnj] at member
    have some : dropZwnj g ≠ [] := mt tidyGap_eq_nil.mpr (List.ne_nil_of_mem member)
    obtain ⟨d, rest, split⟩ := List.exists_cons_of_ne_nil some
    have first : d ∈ dropZwnj g := split ▸ List.mem_cons_self
    exact ⟨d, (List.mem_filter.mp first).1, dropZwnj_blank gap d first⟩

theorem normalize_stable (nfkc : Str → Str) {f : Str} (stable : characterSteps nfkc f = f) :
    normalize nfkc f = gapSteps f := by
  rw [normalize]
  split
  · rename_i empty
    rw [empty, gapSteps_blank (by simp [IsGap])]
  · rw [stable, gapSteps]

theorem not_interior {f a g b : Str} (gap : IsGap isSep f) : ¬ Interior isSep a g b f := by
  intro interior
  obtain ⟨c, last, solid⟩ := interior.left
  have separator := gap c (by rw [interior.split]; exact List.mem_append_left _ (List.mem_of_getLast? last))
  rw [solid] at separator
  exact absurd separator (by simp)

/-- The gap between two characters of the output is decided by the gap between them in the text. -/
theorem gap_between {f a b a' o b' : Str} (before : Interior isSep a g b f)
    (after : Interior isSep a' o b' (gapSteps f)) (aligned : (solids a).length = (solids a').length) :
    o = finalGap (touching isBlock a.reverse) g (b.takeWhile isBlock) := by
  induction f using text_cases isSep with
  | gap f gap => exact absurd before (not_interior gap)
  | cells h x cs last proper gapEnd =>
      have mapped := final_proper proper
      rw [gapSteps_render proper gapEnd] at after
      rw [← startRun_gap h x] at mapped after
      exact gap_of_interior isBlock_of_isSep proper gapEnd mapped before after aligned

/-- White space is kept as a separation, white space is never put where there was none, and
    a half-space stands where there were half-spaces only or where a rule asks for it. -/
theorem half_spaces_sound (nfkc : Str → Str) {f : Str} (stable : characterSteps nfkc f = f) :
    solids (normalize nfkc f) = solids f ∧
      ∀ a g b a' o b', Interior isSep a g b f → Interior isSep a' o b' (normalize nfkc f) →
        (solids a).length = (solids a').length →
          ((∃ c ∈ g, isSpace c = true) → ∃ c ∈ o, isSpace c = true ∨ c = zwnj) ∧
          ((∃ c ∈ o, isSpace c = true) → ∃ c ∈ g, isSpace c = true) ∧
          (zwnj ∈ o →
            (g ≠ [] ∧ ∀ c ∈ g, c = zwnj) ∨
              (touching isBlock a.reverse ∈ prefixes ∧
                (g = [] ∧ b.takeWhile isBlock ∈ verbStems ∨ g ≠ [] ∧ ∀ c ∈ g, isSpaceOrZwnj c = true)) ∨
              (' ' ∈ g ∧ (∀ c ∈ g, isSpaceOrZwnj c = true) ∧ b.takeWhile isBlock ∈ suffixes ∧
                2 ≤ (touching isBlock a.reverse).length)) := by
  rw [normalize_stable nfkc stable]
  refine ⟨solids_gapSteps f, ?_⟩
  intro a g b a' o b' before after aligned
  obtain rfl := gap_between before after aligned
  refine ⟨?_, ?_, ?_⟩
  · rintro ⟨c, member, space⟩
    obtain ⟨d, rest, split⟩ := List.exists_cons_of_ne_nil
      (@finalGap_ne_nil (touching isBlock a.reverse) g (b.takeWhile isBlock) c member space)
    refine ⟨d, by simp [split], ?_⟩
    have separator := after.gap d (by simp [split])
    rwa [isSep, Bool.or_eq_true, beq_iff_eq] at separator
  · rintro ⟨c, member, space⟩
    exact space_of_finalGap before.gap member space
  · intro member
    obtain ⟨-, -, attached | half | ⟨joint, rule⟩⟩ := half_of_zwnj member
    · exact .inr (.inl ⟨attached.2.1, .inl ⟨attached.1, attached.2.2⟩⟩)
    · exact .inl half
    · by_cases only : ∀ c ∈ g, c = zwnj
      · exact .inl ⟨joint.1, only⟩
      · cases rule with
        | inl listed => exact .inr (.inl ⟨listed, .inr joint⟩)
        | inr suffix =>
            refine .inr (.inr ⟨?_, joint.2, suffix.2, suffix.1⟩)
            push Not at only
            obtain ⟨c, inGap, other⟩ := only
            have spelled := joint.2 c inGap
            rw [isSpaceOrZwnj, Bool.or_eq_true, beq_iff_eq, beq_iff_eq] at spelled
            exact spelled.resolve_right other ▸ inGap

theorem half_spaces_sound_books :
    characterSteps (fun t => t) "کتاب ها".toList = "کتاب ها".toList ∧
      solids (normalize (fun t => t) "کتاب ها".toList) = solids "کتاب ها".toList :=
  ⟨by decide +kernel, (half_spaces_sound (fun t => t) (by decide +kernel)).1⟩

end Nipoto.Normalize
