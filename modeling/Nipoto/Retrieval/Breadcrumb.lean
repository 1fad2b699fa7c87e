import Nipoto.Retrieval.Overlap

/-! # The first line of a document chunk

It is "title › section" unless the paragraph that opens its piece has the title in
its first line; then it stays whatever that line is.
-/

namespace Nipoto.Chunking

open Text Text.Regex Clean Packing

/-- The line a chunk should open with. -/
def crumb (title : Str) : Option Str → Str
  | none => title
  | some name => if name = title then title else title ++ breadcrumb ++ name

theorem titlePrefix_eq {name : Option Str} (title : Str) (named : ∀ n ∈ name, n ≠ [] ∧ '\n' ∉ n) :
    titlePrefix title name = crumb title name := by
  cases name with
  | none => rfl
  | some n =>
      have some := (named n rfl).1
      by_cases same : n = title <;> simp [titlePrefix, crumb, some, same]

theorem crumb_single {title : Str} {name : Option Str} (single : '\n' ∉ title)
    (named : ∀ n ∈ name, n ≠ [] ∧ '\n' ∉ n) : '\n' ∉ crumb title name := by
  cases name with
  | none => exact single
  | some n =>
      have noBreak := (named n rfl).2
      have separator : '\n' ∉ breadcrumb := by decide
      by_cases same : n = title <;> simp [crumb, same, single, noBreak, separator]

variable {α : Type} {parse : Str → List Event} {item : Item α}

/-- The first line after indexing, from the piece. -/
theorem firstLine_indexedText {title : Str} {chunk : Chunk α} (titled : title ≠ []) (single : '\n' ∉ title)
    (sound : Sound (entry chunk)) :
    firstLine (indexedText title chunk) =
      if title <:+: firstLine chunk.text then firstLine chunk.text else crumb title chunk.sectionName := by
  have named : ∀ n ∈ chunk.sectionName, n ≠ [] ∧ '\n' ∉ n := sound.named
  simp only [indexedText, contains, decide_eq_true_eq]
  by_cases found : title <:+: firstLine chunk.text
  · rw [if_pos ⟨titled, found⟩, if_pos found]
  · rw [if_neg (fun both => found both.2), if_neg found, titlePrefix_eq title named,
      List.append_assoc]
    exact firstLine_append_break (crumb_single single named) chunk.text

/-- A text does not take the breadcrumb of its section away: the title is not in its first
    line, unless this line is the breadcrumb. -/
def Spares (title : Str) (name : Option Str) (text : Str) : Prop :=
  title <:+: firstLine text → firstLine text = crumb title name

/-- The paragraph begins a window of the paragraphs, as their tokens cut them. -/
def Opens (paragraphs : List Str) (paragraph : Str) : Prop :=
  ∃ windows, Overlapping countTokens docMaxTokens docOverlapTokens paragraphs windows ∧
    ∃ w ∈ windows, paragraphs[w.start]? = some paragraph

theorem firstLine_joinParagraphs (paragraph : Str) (more : List Str) :
    firstLine (joinParagraphs (paragraph :: more)) = firstLine paragraph := by
  cases more with
  | nil => simp [joinParagraphs, join]
  | cons next more =>
      have split : joinParagraphs (paragraph :: next :: more) =
          paragraph ++ '\n' :: ('\n' :: joinParagraphs (next :: more)) := by
        simp [joinParagraphs, join]
      rw [split, firstLine_append_line]

/-- The first line of a piece is that of the paragraph which opens it. -/
theorem forall_pieces_iff {body : Str} (P : Str → Prop) :
    (∀ piece ∈ pack (splitParagraphs body) docMaxTokens docOverlapTokens, P (firstLine piece)) ↔
      ∀ paragraph, Opens (splitParagraphs body) paragraph → P (firstLine paragraph) := by
  have filled : ∀ paragraph ∈ splitParagraphs body, paragraph ≠ [] := fun _ member => (mem_splitParagraphs member).2
  generalize splitParagraphs body = paragraphs at filled ⊢
  by_cases none : paragraphs = []
  · subst none
    simp [Opens, pack]
  · obtain ⟨windows, pieces, overlapping⟩ := pack_windowed none filled docMaxTokens docOverlapTokens
    have opened : ∀ w ∈ windows, ∃ paragraph more, paragraphs[w.start]? = some paragraph ∧
        slice paragraphs w = paragraph :: more := fun w member => overlapping.opened member
    rw [pieces, List.forall_mem_map]
    constructor
    · rintro all paragraph ⟨others, alike, w, member, opens⟩
      obtain rfl := alike.unique none overlapping
      obtain ⟨found, more, there, split⟩ := opened w member
      obtain rfl := Option.some.inj (opens.symm.trans there)
      have here := all w member
      rwa [split, firstLine_joinParagraphs] at here
    · intro all w member
      obtain ⟨paragraph, more, there, split⟩ := opened w member
      rw [split, firstLine_joinParagraphs]
      exact all paragraph ⟨windows, overlapping, w, member, there⟩

theorem spares_piecesOf_iff (title : Str) (s : Section) :
    (∀ piece ∈ piecesOf docMaxTokens docOverlapTokens s, Spares title s.heading piece) ↔
      ∀ paragraph, Opens (splitParagraphs s.body) paragraph → Spares title s.heading paragraph := by
  have pieces := @forall_pieces_iff s.body fun line => title <:+: line → line = crumb title s.heading
  rw [piecesOf]
  split
  · rename_i blank
    rw [splitParagraphs_blank blank] at pieces ⊢
    simp only [Spares, ← pieces]
    simp [pack]
  · exact pieces

/-- The pieces of a text, or the whole text if no section of it has a body. -/
theorem spares_entries_iff (title : Str) (titled : title ≠ []) (text : Str) :
    (∀ e ∈ (if sectionPieces docMaxTokens docOverlapTokens text = [] ∧ strip text ≠ [] then [(none, strip text)]
        else sectionPieces docMaxTokens docOverlapTokens text), Spares title e.1 e.2) ↔
      (∀ s ∈ splitSections text, ∀ paragraph, Opens (splitParagraphs s.body) paragraph →
          Spares title s.heading paragraph) ∧
        ((∀ s ∈ splitSections text, strip s.body = []) → Spares title none (strip text)) := by
  have bySection : (∀ e ∈ sectionPieces docMaxTokens docOverlapTokens text, Spares title e.1 e.2) ↔
      ∀ s ∈ splitSections text, ∀ paragraph, Opens (splitParagraphs s.body) paragraph →
        Spares title s.heading paragraph := by
    simp only [← spares_piecesOf_iff, sectionPieces, List.forall_mem_flatMap, List.forall_mem_map]
  have bare : sectionPieces docMaxTokens docOverlapTokens text = [] ↔ ∀ s ∈ splitSections text, strip s.body = [] := by
    simp only [sectionPieces, List.flatMap_eq_nil_iff, List.map_eq_nil_iff, piecesOf_eq_nil]
  rw [← bySection, ← bare]
  by_cases none : sectionPieces docMaxTokens docOverlapTokens text = []
  · by_cases blank : strip text = []
    · have empty : Spares title .none [] := fun inside => absurd (List.infix_nil.mp inside) titled
      simp [none, blank, empty]
    · simp [none, blank]
  · simp [none]

/-- A document has its breadcrumbs just if no paragraph that opens a piece has the title in
    its first line, unless this line is the breadcrumb already. -/
theorem first_lines_meet_iff (isDoc : item.type = "doc".toList) (titled : item.cleanTitle ≠ [])
    (single : '\n' ∉ item.cleanTitle) :
    (∀ chunk ∈ chunkDocument parse item,
        firstLine chunk.text = crumb item.cleanTitle chunk.sectionName) ↔
      (∀ s ∈ splitSections (clean parse item.bodyText), ∀ paragraph, Opens (splitParagraphs s.body) paragraph →
          Spares item.cleanTitle s.heading paragraph) ∧
        ((∀ s ∈ splitSections (clean parse item.bodyText), strip s.body = []) →
          Spares item.cleanTitle none (strip (clean parse item.bodyText))) := by
  have indexed : (∀ chunk ∈ chunkDocument parse item,
        firstLine chunk.text = crumb item.cleanTitle chunk.sectionName) ↔
      ∀ e ∈ (chunkDocument parse item).map entry, firstLine e.2 = crumb item.cleanTitle e.1 := by
    simp [entry]
  have raw : (∀ e ∈ (chunkDocument parse item).map entry, firstLine e.2 = crumb item.cleanTitle e.1) ↔
      ∀ e ∈ (chunkDoc parse item.cleanTitle item.bodyText docMaxTokens docOverlapTokens : List (Chunk α)).map entry,
        Spares item.cleanTitle e.1 e.2 := by
    rw [chunkDocument_entries isDoc, List.forall_mem_map, List.forall_mem_map]
    apply forall₂_congr
    intro chunk member
    rw [firstLine_indexedText titled single (chunkDoc_sound member)]
    by_cases found : item.cleanTitle <:+: firstLine chunk.text <;> simp [found, Spares, entry]
  rw [indexed, raw, chunkDoc_entries, spares_entries_iff item.cleanTitle titled]

theorem first_lines_meet_iff_guide :
    let item : Item Unit := { title := some "Guide".toList, body := some "## Start\n\nOpen it.".toList }
    (∀ chunk ∈ chunkDocument (fun _ => []) item,
        firstLine chunk.text = crumb item.cleanTitle chunk.sectionName) ↔
      (∀ s ∈ splitSections (clean (fun _ => []) item.bodyText), ∀ paragraph,
          Opens (splitParagraphs s.body) paragraph → Spares item.cleanTitle s.heading paragraph) ∧
        ((∀ s ∈ splitSections (clean (fun _ => []) item.bodyText), strip s.body = []) →
          Spares item.cleanTitle none (strip (clean (fun _ => []) item.bodyText))) :=
  first_lines_meet_iff rfl (by decide) (by decide)

/-- A paragraph that happens to hold the title takes the breadcrumb away. -/
theorem paragraph_hides_breadcrumb :
    ¬ ∀ (parse : Str → List Event) (item : Item Unit), item.type = "doc".toList →
      item.cleanTitle ≠ [] → '\n' ∉ item.cleanTitle → ∀ chunk ∈ chunkDocument parse item,
        firstLine chunk.text = crumb item.cleanTitle chunk.sectionName := by
  intro always
  have here := always (fun _ => [])
    { title := some "wallet".toList, body := some "## Charge\n\nOpen your wallet page.".toList }
    rfl (by decide) (by decide)
  revert here
  decide +kernel

end Nipoto.Chunking
