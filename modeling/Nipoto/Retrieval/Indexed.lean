import Nipoto.Retrieval.FaqSize
import Nipoto.Retrieval.Outline

/-! # Which items are indexed

A document yields chunks just if its body has content. A FAQ entry whose answer
is empty is still put into the index, unless its question is too long.
-/

namespace Nipoto.Chunking

open Text Clean

variable {α : Type} {parse : Str → List Event} {item : Item α} {maxTokens overlapTokens : Nat}

theorem pack_eq_nil {paragraphs : List Str} : pack paragraphs maxTokens overlapTokens = [] ↔ paragraphs = [] := by
  constructor
  · intro none
    by_contra some
    obtain ⟨first, rest, groups, -⟩ := Packing.pack_opening countTokens maxTokens overlapTokens paragraphs some
    rw [pack_eq, groups] at none
    exact absurd none (by simp)
  · rintro rfl
    rfl

theorem splitParagraphs_eq_nil {text : Str} : splitParagraphs text = [] ↔ Blank text := by
  constructor
  · intro none
    rw [← content_eq_nil, ← content_splitParagraphs, none]
    rfl
  · intro blank
    apply List.eq_nil_iff_forall_not_mem.mpr
    intro paragraph member
    have part : content paragraph = [] := by
      have whole := content_splitParagraphs text
      rw [content_eq_nil.mpr blank, List.flatMap_eq_nil_iff] at whole
      exact whole paragraph member
    obtain ⟨trimmed, some⟩ := mem_splitParagraphs member
    exact some (trimmed ▸ strip_eq_nil.mpr (content_eq_nil.mp part))

theorem splitSections_blank {text : Str} (blank : Blank text) : splitSections text = [] := by
  have groups := splitSections_outline text
  rw [content_eq_nil.mpr blank] at groups
  exact List.map_eq_nil_iff.mp groups

/-- A document has chunks just if its body has content, even where every section is empty. -/
theorem chunkDoc_eq_nil {title body : Str} :
    (chunkDoc parse title body maxTokens overlapTokens : List (Chunk α)) = [] ↔ Blank (clean parse body) := by
  rw [← List.map_eq_nil_iff (f := entry), chunkDoc_entries, ← strip_eq_nil]
  constructor
  · intro none
    by_contra solid
    split at none
    · exact absurd none (by simp)
    · rename_i kept
      exact kept ⟨none, solid⟩
  · intro blank
    have nothing := splitSections_blank (strip_eq_nil.mp blank)
    rw [if_neg (by simp [blank]), sectionPieces, nothing]
    rfl

theorem clean_blank {body : Str} (blank : Blank (clean parse body)) : clean parse body = [] := by
  have trimmed : strip (clean parse body) = clean parse body := by
    rw [clean]
    split
    · rfl
    · split
      · exact strip_strip _
      · exact strip_strip _
  rw [← trimmed, strip_eq_nil.mpr blank]

/-- A question without an answer is one chunk of its own, if it is within the budget. -/
theorem answerParts_eq_nil {title body : Str} :
    answerParts parse title body = [] ↔ Blank (clean parse body) ∧ 1988 < title.length := by
  have labels : questionLabel.length = 6 ∧ answerLabel.length = 6 := by decide
  have size : countTokens (answerText title []) ≤ faqMaxTokens ↔ title.length ≤ 1988 := by
    have some : answerText title [] ≠ [] := by simp [answerText]
    rw [countTokens, if_neg some, faqMaxTokens]
    simp only [answerText, List.length_append, List.length_nil, List.length_singleton, labels]
    omega
  rw [answerParts]
  split
  · rename_i whole
    apply iff_of_false (by simp)
    rintro ⟨blank, long⟩
    rw [clean_blank blank] at whole
    exact absurd (size.mp whole) (Nat.not_le.mpr long)
  · rename_i split
    rw [pack_eq_nil, splitParagraphs_eq_nil]
    refine ⟨fun blank => ⟨blank, ?_⟩, And.left⟩
    rw [clean_blank blank, size] at split
    exact Nat.not_le.mp split

theorem label_solid (title part : Str) : strip (answerText title part) ≠ [] := by
  intro blank
  have first : isSpace 'پ' = true := strip_eq_nil.mp blank 'پ' (by simp [answerText, questionLabel])
  exact absurd first (by decide)

theorem rawChunks_solid {chunk : Chunk α} (member : chunk ∈ rawChunks parse item) : strip chunk.text ≠ [] := by
  rw [rawChunks] at member
  split at member
  · rw [chunkFaq_parts] at member
    obtain ⟨index, inRange, rfl⟩ := List.mem_mapIdx.mp member
    exact label_solid item.cleanTitle _
  · intro blank
    obtain ⟨c, rest, opens, solid⟩ := (chunkDoc_sound member).solid
    have space := strip_eq_nil.mp blank c (by rw [show chunk.text = c :: rest from opens]; simp)
    rw [solid] at space
    exact absurd space (by simp)

theorem chunkDocument_eq_nil : chunkDocument parse item = [] ↔ rawChunks parse item = [] := by
  rw [chunkDocument, ← List.map_eq_nil_iff (f := entry),
    addChunks_entries item (fun chunk member => rawChunks_solid member), List.map_nil, List.nil_append,
    List.map_eq_nil_iff]

/-- An item has chunks just if its body has content, except for a FAQ entry with an empty
    answer and a question of at most 1988 characters. -/
theorem chunkDocument_indexed_iff (parse : Str → List Event) (item : Item α) :
    (chunkDocument parse item = [] ↔ Blank (clean parse item.bodyText)) ↔
      (item.type = "faq".toList → Blank (clean parse item.bodyText) → 1988 < item.cleanTitle.length) := by
  rw [chunkDocument_eq_nil, rawChunks]
  split
  · rename_i isFaq
    rw [chunkFaq_parts, List.mapIdx_eq_nil_iff, answerParts_eq_nil]
    simp only [isFaq, true_imp_iff]
    tauto
  · rename_i isDoc
    exact iff_of_true chunkDoc_eq_nil fun isFaq => absurd isFaq isDoc

/-- An entry without a body. -/
def unanswered : Item Unit := { title := some "t".toList, type := "faq".toList }

set_option maxRecDepth 8000 in
/-- The chunk is the question with its two labels. -/
theorem unanswered_indexed :
    ¬ (chunkDocument (fun _ => []) unanswered = [] ↔ Blank (clean (fun _ => []) unanswered.bodyText)) := by
  decide +kernel

end Nipoto.Chunking
