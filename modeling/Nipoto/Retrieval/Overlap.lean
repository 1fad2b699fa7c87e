import Mathlib.Data.List.Nodup
import Nipoto.General.Closings
import Nipoto.Retrieval.Pieces

/-! # The overlap of pieces

`pack` cuts paragraphs into windows. Whether a piece stays within the budget,
holds something that the next one does not, or is repeated at all, depends on
what the loop has in hand when it closes a piece.
-/

namespace Nipoto.Chunking

open Text Text.Regex Clean Packing

variable {paragraphs : List Str} {maxTokens overlapTokens : Nat}

theorem countTokens_pos {text : Str} (some : text ≠ []) : 0 < countTokens text := by
  rw [countTokens, if_neg some]
  omega

theorem pack_windowed (some : paragraphs ≠ []) (filled : ∀ paragraph ∈ paragraphs, paragraph ≠ [])
    (maxTokens overlapTokens : Nat) :
    ∃ windows, pack paragraphs maxTokens overlapTokens =
        windows.map (fun w => joinParagraphs (slice paragraphs w)) ∧
      Overlapping countTokens maxTokens overlapTokens paragraphs windows := by
  obtain ⟨windows, groups, overlapping⟩ := @pack_windows Str countTokens maxTokens overlapTokens paragraphs
    (fun paragraph member => countTokens_pos (filled paragraph member)) some
  refine ⟨windows, ?_, overlapping⟩
  rw [pack_eq, groups, List.map_map]
  rfl

/-- The pieces are overlapping windows of the paragraphs, and no other windows overlap so. -/
theorem pack_overlapping (some : paragraphs ≠ []) (filled : ∀ paragraph ∈ paragraphs, paragraph ≠ [])
    (maxTokens overlapTokens : Nat) :
    ∃ windows, pack paragraphs maxTokens overlapTokens =
        windows.map (fun w => joinParagraphs (slice paragraphs w)) ∧
      Overlapping countTokens maxTokens overlapTokens paragraphs windows ∧
      ∀ others, Overlapping countTokens maxTokens overlapTokens paragraphs others → others = windows := by
  obtain ⟨windows, pieces, overlapping⟩ := pack_windowed some filled maxTokens overlapTokens
  exact ⟨windows, pieces, overlapping, fun others alike => alike.unique some overlapping⟩

theorem pack_overlapping_three :
    ∃ windows, pack ["one".toList, "two and more".toList, "three".toList] 5 2 =
        windows.map (fun w => joinParagraphs (slice ["one".toList, "two and more".toList, "three".toList] w)) ∧
      Overlapping countTokens 5 2 ["one".toList, "two and more".toList, "three".toList] windows ∧
      ∀ others, Overlapping countTokens 5 2 ["one".toList, "two and more".toList, "three".toList] others →
        others = windows :=
  pack_overlapping (by decide) (by decide) 5 2

/-- The loop closes a piece in front of the paragraph. -/
def ClosesAt (maxTokens overlapTokens : Nat) (before : List Str) (paragraph : Str) : Prop :=
  (packed maxTokens overlapTokens before).current ≠ [] ∧
    maxTokens < (packed maxTokens overlapTokens before).currentTokens + countTokens paragraph

theorem atClosings_packed (Q : List Str → Nat → Str → Prop) (paragraphs : List Str) :
    AtClosings countTokens maxTokens overlapTokens Q [] 0 paragraphs ↔
      ∀ before paragraph after, paragraphs = before ++ paragraph :: after →
        ClosesAt maxTokens overlapTokens before paragraph →
          Q (packed maxTokens overlapTokens before).current (packed maxTokens overlapTokens before).currentTokens
            paragraph := by
  have general := atClosings_iff countTokens maxTokens overlapTokens Q {} paragraphs
  simp only [ClosesAt, packed_joined]
  exact general

theorem packed_last (before : List Str) (last : Str) :
    (packed maxTokens overlapTokens (before ++ [last])).current.getLast? = some last := by
  rw [packed, List.foldl_append, List.foldl_cons, List.foldl_nil, addParagraph]
  simp

/-- The paragraphs of each piece. -/
def pieceGroups (maxTokens overlapTokens : Nat) (paragraphs : List Str) : List (List Str) :=
  Packing.pack countTokens maxTokens overlapTokens paragraphs

/-- Pieces of two paragraphs or more are within the budget just if, wherever a piece is
    closed, no tail of it that the overlap allows overflows the budget with the next
    paragraph. -/
theorem within_budget_iff (filled : ∀ paragraph ∈ paragraphs, paragraph ≠ []) (maxTokens overlapTokens : Nat) :
    pack paragraphs maxTokens overlapTokens =
        (pieceGroups maxTokens overlapTokens paragraphs).map joinParagraphs ∧
      ((∀ group ∈ pieceGroups maxTokens overlapTokens paragraphs,
          2 ≤ group.length → total countTokens group ≤ maxTokens) ↔
        ∀ before paragraph after, paragraphs = before ++ paragraph :: after →
          ClosesAt maxTokens overlapTokens before paragraph →
            TailsFit countTokens maxTokens overlapTokens (packed maxTokens overlapTokens before).current paragraph) := by
  refine ⟨pack_eq paragraphs maxTokens overlapTokens, ?_⟩
  rw [pieceGroups, pack_groupsFrom, ← atClosings_packed fun current _ x =>
    TailsFit countTokens maxTokens overlapTokens current x]
  apply within_limit_iff
  · exact fun paragraph member => countTokens_pos (filled paragraph (by simpa using member))
  · simp

theorem within_budget_iff_two :
    pack ["short".toList, "somewhat longer".toList] 8 2 =
        (pieceGroups 8 2 ["short".toList, "somewhat longer".toList]).map joinParagraphs ∧
      ((∀ group ∈ pieceGroups 8 2 ["short".toList, "somewhat longer".toList],
          2 ≤ group.length → total countTokens group ≤ 8) ↔
        ∀ before paragraph after, ["short".toList, "somewhat longer".toList] = before ++ paragraph :: after →
          ClosesAt 8 2 before paragraph → TailsFit countTokens 8 2 (packed 8 2 before).current paragraph) :=
  within_budget_iff (by decide) 8 2

/-- A paragraph of 5 tokens is carried in front of one of 10, beyond the budget of 10. -/
theorem carried_paragraph_overflows :
    ¬ ∀ group ∈ pieceGroups 10 5 [List.replicate 12 'a', List.replicate 25 'b'],
      2 ≤ group.length → total countTokens group ≤ 10 := by decide

/-- The paragraphs of each piece, each with its position. -/
def positioned (maxTokens overlapTokens : Nat) (paragraphs : List Str) : List (List (Str × Nat)) :=
  Packing.pack (countTokens ∘ Prod.fst) maxTokens overlapTokens paragraphs.zipIdx

def joinGroup (group : List (Str × Nat)) : Str := joinParagraphs (group.map Prod.fst)

theorem pack_positioned (paragraphs : List Str) (maxTokens overlapTokens : Nat) :
    pack paragraphs maxTokens overlapTokens = (positioned maxTokens overlapTokens paragraphs).map joinGroup := by
  have groups := @groupsFrom_map Str (Str × Nat) countTokens maxTokens overlapTokens Prod.fst [] paragraphs.zipIdx 0
  rw [List.zipIdx_map_fst, List.map_nil] at groups
  rw [pack_eq, pack_groupsFrom, groups, positioned, pack_groupsFrom, List.map_map]
  rfl

theorem zipIdx_nodup (paragraphs : List Str) : paragraphs.zipIdx.Nodup := by
  apply List.Nodup.of_map Prod.snd
  rw [List.zipIdx_map_snd]
  exact List.nodup_range'

theorem zipIdx_positive (filled : ∀ paragraph ∈ paragraphs, paragraph ≠ []) :
    ∀ e ∈ paragraphs.zipIdx, 0 < (countTokens ∘ Prod.fst) e := by
  intro e member
  exact countTokens_pos (filled e.1 (List.fst_mem_of_mem_zipIdx member))

/-- A relation of neighbouring pieces, decided where the first one is closed. -/
theorem positioned_chain_iff {R : List (Str × Nat) → List (Str × Nat) → Prop} {Q : List Str → Nat → Str → Prop}
    (filled : ∀ paragraph ∈ paragraphs, paragraph ≠ [])
    (decides : Decides (countTokens ∘ Prod.fst) overlapTokens R fun group load e => Q (group.map Prod.fst) load e.1) :
    List.IsChain R (positioned maxTokens overlapTokens paragraphs) ↔
      ∀ before paragraph after, paragraphs = before ++ paragraph :: after →
        ClosesAt maxTokens overlapTokens before paragraph →
          Q (packed maxTokens overlapTokens before).current (packed maxTokens overlapTokens before).currentTokens
            paragraph := by
  have moved := @atClosings_map Str (Str × Nat) countTokens maxTokens overlapTokens Prod.fst Q [] paragraphs.zipIdx 0
  rw [List.zipIdx_map_fst, List.map_nil] at moved
  rw [← atClosings_packed, moved, positioned, pack_groupsFrom]
  exact chain_iff decides (zipIdx_positive filled) (zipIdx_nodup paragraphs)

/-- Each piece but the last holds a position that the next one does not just if no piece is
    closed with the overlap or less. -/
theorem no_redundant_piece_iff (filled : ∀ paragraph ∈ paragraphs, paragraph ≠ []) (maxTokens overlapTokens : Nat) :
    pack paragraphs maxTokens overlapTokens = (positioned maxTokens overlapTokens paragraphs).map joinGroup ∧
      (List.IsChain (fun group next => ∃ e ∈ group, e ∉ next) (positioned maxTokens overlapTokens paragraphs) ↔
        ∀ before paragraph after, paragraphs = before ++ paragraph :: after →
          ClosesAt maxTokens overlapTokens before paragraph →
            overlapTokens < (packed maxTokens overlapTokens before).currentTokens) := by
  refine ⟨pack_positioned paragraphs maxTokens overlapTokens, ?_⟩
  exact positioned_chain_iff (Q := fun _ load _ => overlapTokens < load) filled decides_fresh

theorem no_redundant_piece_iff_two :
    pack ["short".toList, "somewhat longer".toList] 7 2 =
        (positioned 7 2 ["short".toList, "somewhat longer".toList]).map joinGroup ∧
      (List.IsChain (fun group next => ∃ e ∈ group, e ∉ next)
          (positioned 7 2 ["short".toList, "somewhat longer".toList]) ↔
        ∀ before paragraph after, ["short".toList, "somewhat longer".toList] = before ++ paragraph :: after →
          ClosesAt 7 2 before paragraph → 2 < (packed 7 2 before).currentTokens) :=
  no_redundant_piece_iff (by decide) 7 2

/-- A short introduction alone is repeated as a whole in front of a long paragraph. -/
theorem introduction_is_redundant :
    ¬ List.IsChain (fun group next => ∃ e ∈ group, e ∉ next)
      (positioned 10 5 [List.replicate 12 'a', List.replicate 25 'b']) := by decide

/-- The last paragraph of each piece but the last stands in the next piece. -/
def Overlaps (maxTokens overlapTokens : Nat) (paragraphs : List Str) : Prop :=
  List.IsChain (fun group next => ∀ e ∈ group.getLast?, e ∈ next) (positioned maxTokens overlapTokens paragraphs)

theorem overlaps_iff (filled : ∀ paragraph ∈ paragraphs, paragraph ≠ []) :
    Overlaps maxTokens overlapTokens paragraphs ↔
      ∀ before last paragraph after, paragraphs = before ++ last :: paragraph :: after →
        ClosesAt maxTokens overlapTokens (before ++ [last]) paragraph → countTokens last ≤ overlapTokens := by
  have decides : Decides (countTokens ∘ Prod.fst) overlapTokens
      (fun (group next : List (Str × Nat)) => ∀ e ∈ group.getLast?, e ∈ next)
      fun group _ _ => ∀ last ∈ (group.map Prod.fst).getLast?, countTokens last ≤ overlapTokens := by
    intro before carried x more most distinct
    have general := decides_repeated before carried x more most distinct
    have same : (∀ last ∈ ((before ++ carried).map Prod.fst).getLast?, countTokens last ≤ overlapTokens) ↔
        ∀ e ∈ (before ++ carried).getLast?, countTokens e.1 ≤ overlapTokens := by
      rw [List.getLast?_map]
      cases (before ++ carried).getLast? <;> simp
    exact general.trans same.symm
  rw [Overlaps, positioned_chain_iff (Q := fun group _ _ => ∀ last ∈ group.getLast?, countTokens last ≤ overlapTokens)
    filled decides]
  constructor
  · intro within before last paragraph after split closes
    exact within (before ++ [last]) paragraph after (by rw [split]; simp) closes last (packed_last before last)
  · intro within before paragraph after split closes last isLast
    obtain rfl | ⟨earlier, y, rfl⟩ := List.eq_nil_or_concat before
    · exact absurd rfl closes.1
    · rw [List.concat_eq_append] at isLast closes split
      rw [packed_last] at isLast
      obtain rfl := Option.some.inj isLast
      exact within earlier y paragraph after (by rw [split]; simp) closes

/-- The pieces of a document by section, each paragraph with its position in the section. -/
def documentPieces (maxTokens overlapTokens : Nat) (text : Str) : List (Option Str × List (Str × Nat)) :=
  (splitSections text).flatMap fun s =>
    (positioned maxTokens overlapTokens (splitParagraphs s.body)).map (s.heading, ·)

theorem splitParagraphs_blank {text : Str} (blank : strip text = []) : splitParagraphs text = [] := by
  cases split : splitParagraphs text with
  | nil => rfl
  | cons paragraph more =>
      have known : paragraph ∈ splitParagraphs text := by rw [split]; exact List.mem_cons_self
      obtain ⟨trimmed, some⟩ := mem_splitParagraphs known
      have nothing : content paragraph = [] := by
        have whole := content_splitParagraphs text
        rw [content_eq_nil.mpr (strip_eq_nil.mp blank), split, List.flatMap_cons] at whole
        exact (List.append_eq_nil_iff.mp whole).1
      exact absurd (trimmed.symm.trans (strip_eq_nil.mpr (content_eq_nil.mp nothing))) some

theorem sectionPieces_positioned (text : Str) :
    sectionPieces maxTokens overlapTokens text =
      (documentPieces maxTokens overlapTokens text).map fun piece => (piece.1, joinGroup piece.2) := by
  rw [sectionPieces, documentPieces, List.map_flatMap]
  apply List.flatMap_congr
  intro s _
  rw [piecesOf, List.map_map]
  split
  · rename_i blank
    rw [splitParagraphs_blank blank]
    rfl
  · rw [pack_positioned, List.map_map]
    rfl

/-- The pieces of every section overlap just if, in every section, no piece is closed
    after a paragraph of more than the overlap. -/
theorem sections_overlap_iff {α : Type} (parse : Str → List Event) (title body : Str) (maxTokens : Nat) :
    (documentPieces maxTokens docOverlapTokens (clean parse body) ≠ [] →
        (chunkDoc parse title body maxTokens docOverlapTokens : List (Chunk α)).map entry =
          (documentPieces maxTokens docOverlapTokens (clean parse body)).map fun piece =>
            (piece.1, joinGroup piece.2)) ∧
      ((∀ s ∈ splitSections (clean parse body), Overlaps maxTokens docOverlapTokens (splitParagraphs s.body)) ↔
        ∀ s ∈ splitSections (clean parse body), ∀ before last paragraph after,
          splitParagraphs s.body = before ++ last :: paragraph :: after →
            ClosesAt maxTokens docOverlapTokens (before ++ [last]) paragraph → countTokens last ≤ docOverlapTokens) := by
  constructor
  · intro some
    rw [chunkDoc_entries, sectionPieces_positioned, if_neg]
    simp [some]
  · have each : ∀ s : Section, Overlaps maxTokens docOverlapTokens (splitParagraphs s.body) ↔
        ∀ before last paragraph after, splitParagraphs s.body = before ++ last :: paragraph :: after →
          ClosesAt maxTokens docOverlapTokens (before ++ [last]) paragraph → countTokens last ≤ docOverlapTokens :=
      fun s => overlaps_iff fun paragraph member => (mem_splitParagraphs member).2
    simp only [each]

set_option maxRecDepth 8000 in
/-- A paragraph of 500 tokens fills a piece alone, and the next piece starts anew. -/
theorem long_paragraph_not_repeated :
    ¬ ∀ s ∈ splitSections (clean (fun _ => []) (List.replicate 1250 'a' ++ "\n\nb".toList)),
      Overlaps docMaxTokens docOverlapTokens (splitParagraphs s.body) := by
  unfold Overlaps
  decide +kernel

end Nipoto.Chunking
