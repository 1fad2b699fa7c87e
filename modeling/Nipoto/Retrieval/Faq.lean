import Nipoto.General.Windows
import Nipoto.Retrieval.Pieces
import Nipoto.Text.Split

/-! # The answer of a FAQ entry

Every chunk of an entry repeats the question in front of a part of the answer.
The parts are cut between paragraphs, and their paragraphs are those of the
answer.
-/

namespace Nipoto.Chunking

open Text Text.Regex Clean

structure Paragraph (text : Str) : Prop where
  trimmed : strip text = text
  some : text ≠ []
  unbroken : Unbroken 2 (· == '\n') text

theorem splitParagraphs_paragraph {text paragraph : Str} (member : paragraph ∈ splitParagraphs text) :
    Paragraph paragraph := by
  obtain ⟨trimmed, some⟩ := mem_splitParagraphs member
  refine ⟨trimmed, some, ?_⟩
  simp only [splitParagraphs, List.mem_filter, List.mem_map] at member
  obtain ⟨⟨raw, part, rfl⟩, -⟩ := member
  exact (splitAt_unbroken (by omega) part).part (strip_isInfix raw)

theorem solid_inLine {c : Char} (solid : isSpace c = false) : (c == '\n') = false := by
  rw [beq_eq_false_iff_ne]
  rintro rfl
  exact absurd solid (by decide)

theorem Paragraph.separate {text : Str} (paragraph : Paragraph text) : Separate 2 (· == '\n') text where
  unbroken := paragraph.unbroken
  begins := fun c first => solid_inLine (strip_head c (paragraph.trimmed.symm ▸ first))
  ends := fun c last => solid_inLine (strip_last c (paragraph.trimmed.symm ▸ last))
  some := paragraph.some

theorem splitParagraphs_join {group : List Str} (paragraphs : ∀ paragraph ∈ group, Paragraph paragraph) :
    splitParagraphs (joinParagraphs group) = group := by
  by_cases filled : group = []
  · subst filled
    rfl
  · have parts : splitAt paragraphSplit (joinParagraphs group) = group :=
      splitAt_join (by omega) (by simp) (by simp) (fun text member => (paragraphs text member).separate) filled
    rw [splitParagraphs, parts, List.map_congr_left fun text member => (paragraphs text member).trimmed, List.map_id']
    exact List.filter_eq_self.mpr fun text member => by simpa using (paragraphs text member).some

/-- The pieces of a text that do not overlap have its paragraphs. -/
theorem splitParagraphs_pack (text : Str) (maxTokens : Nat) :
    (pack (splitParagraphs text) maxTokens 0).flatMap splitParagraphs = splitParagraphs text := by
  have pieces : (pack (splitParagraphs text) maxTokens 0).flatMap splitParagraphs =
      (Packing.pack countTokens maxTokens 0 (splitParagraphs text)).flatten := by
    rw [pack_eq, List.flatMap_map, List.flatten_eq_flatMap]
    apply List.flatMap_congr
    intro group packed
    apply splitParagraphs_join
    intro paragraph member
    exact splitParagraphs_paragraph (Packing.mem_of_mem_pack _ _ _ _ packed member)
  rw [pieces, Packing.flatten_pack]

/-- Parts with the paragraphs of a text have its content, line by line. -/
theorem content_parts_paragraphs {parts : List Str} {text : Str}
    (kept : parts.flatMap splitParagraphs = splitParagraphs text) : parts.flatMap content = content text := by
  calc parts.flatMap content
      = parts.flatMap fun part => (splitParagraphs part).flatMap content := by simp only [content_splitParagraphs]
    _ = (parts.flatMap splitParagraphs).flatMap content := List.flatMap_assoc.symm
    _ = content text := by rw [kept, content_splitParagraphs]

theorem chunkFaq_lossless {α : Type} (parse : Str → List Event) (title body : Str) (maxTokens : Nat) :
    ∃ parts : List Str,
      (chunkFaq parse title body maxTokens : List (Chunk α)) = parts.mapIdx (fun index part =>
        { text := questionLabel ++ title ++ ['\n'] ++ answerLabel ++ part, position := index }) ∧
      parts.flatMap splitParagraphs = splitParagraphs (clean parse body) ∧
      parts.flatMap content = content (clean parse body) := by
  rw [chunkFaq]
  split
  · exact ⟨[clean parse body], rfl, by simp, by simp⟩
  · have kept := splitParagraphs_pack (clean parse body)
    exact ⟨_, rfl, kept _, content_parts_paragraphs (kept _)⟩

end Nipoto.Chunking
