import Mathlib.Algebra.BigOperators.Group.List.Basic
import Nipoto.Retrieval.Faq
import Nipoto.Retrieval.Overlap

/-! # The size of a FAQ chunk

`pack` adds up the tokens of paragraphs, but a chunk is measured with its
question, its labels and the blank lines between its paragraphs.
-/

namespace Nipoto.Chunking

open Text Clean Packing

/-- The paragraphs with the blank line after each. -/
def spacedLength (group : List Str) : Nat := (group.map fun paragraph => paragraph.length + 2).sum

theorem length_joinParagraphs {group : List Str} (some : group ≠ []) :
    (joinParagraphs group).length + 2 = spacedLength group := by
  induction group with
  | nil => exact absurd rfl some
  | cons paragraph more ih =>
      cases more with
      | nil => simp [joinParagraphs, join, spacedLength]
      | cons next more =>
          have rest := ih (by simp)
          have split : joinParagraphs (paragraph :: next :: more) =
              paragraph ++ (['\n', '\n'] ++ joinParagraphs (next :: more)) := by
            simp [joinParagraphs, join]
          simp only [split, List.length_append, List.length_cons, List.length_nil, spacedLength, List.map_cons,
            List.sum_cons] at rest ⊢
          omega

/-- The text of an answer chunk. -/
def answerText (title part : Str) : Str := questionLabel ++ title ++ ['\n'] ++ answerLabel ++ part

theorem length_answerText {title : Str} {group : List Str} (some : group ≠ []) :
    (answerText title (joinParagraphs group)).length = title.length + 11 + spacedLength group := by
  have labels : questionLabel.length = 6 ∧ answerLabel.length = 6 := by decide
  have joined := length_joinParagraphs some
  simp only [answerText, List.length_append, List.length_singleton, labels]
  omega

/-- 1.2 times 800 tokens are 2401 characters. -/
theorem tokens_le_iff (text : Str) : 10 * countTokens text ≤ 12 * faqMaxTokens ↔ text.length ≤ 2401 := by
  rw [countTokens, faqMaxTokens]
  split
  · rename_i empty
    simp [empty]
  · omega

/-- What the question leaves of the budget. -/
def answerBudget (title : Str) : Nat := max (faqMaxTokens - (countTokens (questionLabel ++ title) + 2)) 1

variable {α : Type} {parse : Str → List Event} {title body : Str}

/-- The parts of the answer that are put into chunks. -/
def answerParts (parse : Str → List Event) (title body : Str) : List Str :=
  if countTokens (answerText title (clean parse body)) ≤ faqMaxTokens then [clean parse body]
  else pack (splitParagraphs (clean parse body)) (answerBudget title) 0

theorem chunkFaq_parts :
    (chunkFaq parse title body faqMaxTokens : List (Chunk α)) =
      (answerParts parse title body).mapIdx (answerChunk (questionLabel ++ title)) := by
  by_cases whole : countTokens (answerText title (clean parse body)) ≤ faqMaxTokens
  · rw [answerParts, if_pos whole]
    exact if_pos whole
  · rw [answerParts, if_neg whole]
    exact if_neg whole

/-- Every chunk whose answer has two paragraphs or more is within 1.2 times the budget. -/
def WithinMargin (α : Type) (parse : Str → List Event) (title body : Str) : Prop :=
  ∀ chunk ∈ (chunkFaq parse title body faqMaxTokens : List (Chunk α)), ∀ part,
    chunk.text = answerText title part → 2 ≤ (splitParagraphs part).length →
      10 * countTokens chunk.text ≤ 12 * faqMaxTokens

theorem withinMargin_parts :
    WithinMargin α parse title body ↔
      ∀ part ∈ answerParts parse title body, 2 ≤ (splitParagraphs part).length →
        (answerText title part).length ≤ 2401 := by
  simp only [WithinMargin, tokens_le_iff, chunkFaq_parts]
  constructor
  · intro all part member long
    obtain ⟨index, inRange, rfl⟩ := List.mem_iff_getElem.mp member
    exact all _ (List.mem_mapIdx.mpr ⟨index, inRange, rfl⟩) _ rfl long
  · intro all chunk member part text long
    obtain ⟨index, inRange, rfl⟩ := List.mem_mapIdx.mp member
    have same : (answerParts parse title body)[index] = part := List.append_cancel_left text
    rw [text]
    exact all part (same ▸ List.getElem_mem inRange) long

theorem withinMargin_of_whole (whole : countTokens (answerText title (clean parse body)) ≤ faqMaxTokens) :
    WithinMargin α parse title body := by
  rw [withinMargin_parts, answerParts, if_pos whole]
  intro part member long
  obtain rfl := List.mem_singleton.mp member
  rw [← tokens_le_iff]
  omega

/-- The parts of a split answer are its packed groups of paragraphs. -/
theorem withinMargin_groups (split : faqMaxTokens < countTokens (answerText title (clean parse body))) :
    WithinMargin α parse title body ↔
      ∀ group ∈ pieceGroups (answerBudget title) 0 (splitParagraphs (clean parse body)), 2 ≤ group.length →
        title.length + 11 + spacedLength group ≤ 2401 := by
  rw [withinMargin_parts, answerParts, if_neg (Nat.not_le.mpr split), pack_eq, List.forall_mem_map]
  apply forall₂_congr
  intro group packed
  have paragraphs : splitParagraphs (joinParagraphs group) = group := by
    apply splitParagraphs_join
    intro paragraph member
    exact splitParagraphs_paragraph (mem_of_mem_pack _ _ _ _ packed member)
  rw [paragraphs, length_answerText (ne_nil_of_mem_pack _ _ _ _ packed)]

theorem total_le_budget {maxTokens : Nat} {paragraphs group : List Str} (filled : ∀ paragraph ∈ paragraphs, paragraph ≠ [])
    (packed : group ∈ pieceGroups maxTokens 0 paragraphs) (long : 2 ≤ group.length) :
    total countTokens group ≤ maxTokens := by
  have positive : ∀ paragraph ∈ [] ++ paragraphs, 0 < countTokens paragraph :=
    fun paragraph member => countTokens_pos (filled paragraph (by simpa using member))
  have within := @within_limit_iff Str countTokens maxTokens 0 [] paragraphs positive (by simp)
  rw [pieceGroups, pack_groupsFrom] at packed
  refine within.mpr ?_ group packed long
  -- Nothing is carried over, so there is no tail to overflow.
  apply (atClosings_iff countTokens maxTokens 0 _ {} paragraphs).mpr
  intro before paragraph after split closes tail ending some light
  have known : ∀ x ∈ tail, x ∈ paragraphs := by
    intro x member
    have inBefore := (pack_holds countTokens maxTokens 0 before).known x
      (List.mem_append_right _ (ending.subset member))
    rw [split]
    exact List.mem_append_left _ inBefore
  obtain ⟨x, more, rfl⟩ := List.exists_cons_of_ne_nil some
  have heavy := countTokens_pos (filled x (known x List.mem_cons_self))
  simp only [total, List.map_cons, List.sum_cons] at light
  omega

theorem length_le_tokens (text : Str) : 4 * text.length ≤ 10 * countTokens text + 4 := by
  rw [countTokens]
  split
  · rename_i empty
    simp [empty]
  · omega

theorem spacedLength_le (group : List Str) :
    4 * spacedLength group ≤ 10 * total countTokens group + 12 * group.length := by
  induction group with
  | nil => simp [spacedLength, total]
  | cons paragraph group ih =>
      have here := length_le_tokens paragraph
      simp only [spacedLength, total, List.map_cons, List.sum_cons, List.length_cons] at ih ⊢
      omega

/-- No more than so many paragraphs that stand side by side fit the budget together. -/
def FewFit (count : Nat) (title : Str) (paragraphs : List Str) : Prop :=
  ∀ run, run <:+: paragraphs → total countTokens run ≤ answerBudget title → run.length ≤ count

/-- Every paragraph adds less than two tokens that the loop does not count. -/
theorem withinMargin_of_few (few : FewFit 133 title (splitParagraphs (clean parse body))) :
    WithinMargin α parse title body := by
  by_cases whole : countTokens (answerText title (clean parse body)) ≤ faqMaxTokens
  · exact withinMargin_of_whole whole
  · rw [withinMargin_groups (Nat.not_le.mp whole)]
    intro group packed long
    have filled : ∀ paragraph ∈ splitParagraphs (clean parse body), paragraph ≠ [] :=
      fun paragraph member => (mem_splitParagraphs member).2
    have within := total_le_budget filled packed long
    have run : group <:+: splitParagraphs (clean parse body) := by
      have part := List.infix_of_mem_flatten packed
      rwa [pieceGroups, flatten_pack] at part
    have short : group.length ≤ 133 := few group run within
    have chars := spacedLength_le group
    have head := length_le_tokens (questionLabel ++ title)
    have label : questionLabel.length = 6 := by decide
    -- A budget of one token holds no group of two paragraphs.
    have heavy : group.length ≤ total countTokens group := by
      have each : ∀ tokens ∈ group.map countTokens, 1 ≤ tokens := by
        intro tokens member
        obtain ⟨paragraph, inGroup, rfl⟩ := List.mem_map.mp member
        exact countTokens_pos (filled paragraph (mem_of_mem_pack _ _ _ _ packed inGroup))
      simpa [total] using List.length_le_sum_of_one_le _ each
    rw [List.length_append, label] at head
    rw [answerBudget, faqMaxTokens] at within
    omega

/-- 134 paragraphs of 796 tokens, each as long as its tokens allow. -/
def longestParagraphs : List Str := List.replicate 133 "aaaaaa".toList ++ [List.replicate 1326 'a']

set_option maxRecDepth 8000 in
theorem clean_longest : clean (fun _ => []) (joinParagraphs longestParagraphs) = joinParagraphs longestParagraphs := by
  decide +kernel

set_option maxRecDepth 8000 in
theorem splitParagraphs_longest : splitParagraphs (joinParagraphs longestParagraphs) = longestParagraphs := by
  decide +kernel

theorem length_longest : longestParagraphs.length = 134 := by
  rw [longestParagraphs, List.length_append, List.length_replicate, List.length_singleton]

set_option maxRecDepth 8000 in
theorem longest_overflow : ¬ WithinMargin α (fun _ => []) [] (joinParagraphs longestParagraphs) := by
  have parts : answerParts (fun _ => []) [] (joinParagraphs longestParagraphs) = [joinParagraphs longestParagraphs] := by
    rw [answerParts, clean_longest, splitParagraphs_longest]
    decide +kernel
  have long : 2 ≤ (splitParagraphs (joinParagraphs longestParagraphs)).length := by
    rw [splitParagraphs_longest, length_longest]
    decide
  rw [withinMargin_parts, parts]
  intro within
  exact absurd (within _ List.mem_cons_self long) (by decide +kernel)

theorem longest_few {count : Nat} (more : 133 < count) :
    FewFit count [] (splitParagraphs (clean (fun _ => []) (joinParagraphs longestParagraphs))) := by
  rw [clean_longest, splitParagraphs_longest]
  intro run inside _
  have short := inside.length_le
  rw [length_longest] at short
  omega

/-- An answer that is not split is within the margin, and so is one of which no more than
    133 neighbouring paragraphs fit the budget. No larger number will do. -/
theorem withinMargin_few_iff (α : Type) (count : Nat) :
    (∀ parse title body,
        countTokens (answerText title (clean parse body)) ≤ faqMaxTokens ∨
            FewFit count title (splitParagraphs (clean parse body)) →
          WithinMargin α parse title body) ↔
      count ≤ 133 := by
  constructor
  · intro enough
    by_contra more
    exact longest_overflow (enough _ _ _ (.inr (longest_few (Nat.not_le.mp more))))
  · rintro few parse title body (whole | sparse)
    · exact withinMargin_of_whole whole
    · exact withinMargin_of_few fun run inside fits => (sparse run inside fits).trans few

/-- 483 paragraphs of one token each. -/
def manyParagraphs : Str := joinParagraphs (List.replicate 483 "aaa".toList)

set_option maxRecDepth 8000 in
/-- One chunk of 971 tokens. -/
theorem many_paragraphs_overflow : ¬ WithinMargin Unit (fun _ => []) "t".toList manyParagraphs := by
  have whole : clean (fun _ => []) manyParagraphs = manyParagraphs := by decide +kernel
  have parts : answerParts (fun _ => []) "t".toList manyParagraphs = [manyParagraphs] := by
    rw [answerParts, whole]
    decide +kernel
  rw [withinMargin_parts, parts]
  intro within
  have long : 2 ≤ (splitParagraphs manyParagraphs).length := by decide +kernel
  exact absurd (within manyParagraphs List.mem_cons_self long) (by decide +kernel)

end Nipoto.Chunking
