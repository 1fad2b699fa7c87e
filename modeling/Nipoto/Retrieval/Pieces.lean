import Mathlib.Data.List.Flatten
import Nipoto.Retrieval.Sections

/-! # From sections to chunks

`pack` is greedy packing of paragraphs by their tokens, joined afterwards. A
document's chunks are the pieces of its sections in order, or the whole text if
no section has a body, and no chunk is left out for being blank.
-/

namespace Nipoto.Chunking

open Text Text.Regex Clean

theorem carryBack_eq (overlapTokens : Nat) (earlier carried : List Str) (total : Nat) :
    carryBack overlapTokens earlier carried total =
      Packing.carry countTokens overlapTokens earlier carried total := by
  induction earlier generalizing carried total with
  | nil => rfl
  | cons paragraph earlier ih => simp only [carryBack, Packing.carry, ih]

theorem carryOver_eq (current : List Str) (overlapTokens : Nat) :
    carryOver current overlapTokens = Packing.carryOver countTokens overlapTokens current := by
  simp only [carryOver, Packing.carryOver, carryBack_eq]

/-- The groups of the general packer, joined. -/
def joined (p : Packing.Packer Str) : Packer :=
  { pieces := p.groups.map joinParagraphs, current := p.current, currentTokens := p.load }

theorem addParagraph_joined (maxTokens overlapTokens : Nat) (p : Packing.Packer Str) (paragraph : Str) :
    addParagraph maxTokens overlapTokens (joined p) paragraph =
      joined (Packing.place countTokens maxTokens overlapTokens p paragraph) := by
  simp only [addParagraph, Packing.place, Packing.close, joined, carryOver_eq]
  by_cases full : p.current ≠ [] ∧ maxTokens < p.load + countTokens paragraph
  · simp only [if_pos full, List.map_append, List.map_cons, List.map_nil]
  · simp only [if_neg full]

/-- The loop of `pack` after some paragraphs. -/
def packed (maxTokens overlapTokens : Nat) (before : List Str) : Packer :=
  before.foldl (addParagraph maxTokens overlapTokens) {}

theorem packed_joined (maxTokens overlapTokens : Nat) (before : List Str) :
    packed maxTokens overlapTokens before =
      joined (Packing.packFrom countTokens maxTokens overlapTokens {} before) := by
  rw [packed, show ({} : Packer) = joined {} from rfl]
  exact List.foldl_hom joined fun p paragraph => addParagraph_joined maxTokens overlapTokens p paragraph

theorem pack_eq (paragraphs : List Str) (maxTokens overlapTokens : Nat) :
    pack paragraphs maxTokens overlapTokens =
      (Packing.pack countTokens maxTokens overlapTokens paragraphs).map joinParagraphs := by
  have run := packed_joined maxTokens overlapTokens paragraphs
  rw [packed] at run
  simp only [pack, run, Packing.pack, Packing.finish]
  split <;> simp_all [joined]

theorem mem_splitParagraphs {text paragraph : Str} (member : paragraph ∈ splitParagraphs text) :
    strip paragraph = paragraph ∧ paragraph ≠ [] := by
  simp only [splitParagraphs, List.mem_filter, List.mem_map, decide_eq_true_eq] at member
  obtain ⟨⟨raw, -, rfl⟩, some⟩ := member
  exact ⟨strip_strip raw, some⟩

theorem content_splitParagraphs (text : Str) : (splitParagraphs text).flatMap content = content text := by
  have breaks : ∀ before rest d, paragraphSplit.matchAt before rest = some d →
      ∃ w, rest = w ++ d.rest ∧ ∀ c ∈ w, c = '\n' := by
    intro before rest d found
    obtain ⟨w, r, split, -, inside, rfl⟩ := matches_many.mp (Pattern.matchAt_sound found)
    exact ⟨w, split, fun c member => by simpa using inside c member⟩
  rw [← content_splitAt breaks text, splitParagraphs]
  generalize splitAt paragraphSplit text = parts
  induction parts with
  | nil => rfl
  | cons part parts ih =>
      by_cases blank : strip part = []
      · have nothing : content part = [] := content_eq_nil.mpr (strip_eq_nil.mp blank)
        simpa [blank, nothing] using ih
      · simpa [blank] using ih

theorem content_joinParagraphs (paragraphs : List Str) :
    content (joinParagraphs paragraphs) = paragraphs.flatMap content := content_join_paragraphs paragraphs

theorem joinParagraphs_cons (paragraph : Str) (more : List Str) :
    ∃ tail, joinParagraphs (paragraph :: more) = paragraph ++ tail := by
  cases more with
  | nil => exact ⟨[], by simp [joinParagraphs, join]⟩
  | cons next more => exact ⟨_, List.intercalate_cons_cons.trans (List.append_assoc ..)⟩

/-- The pieces that `chunkDoc` cuts from a section. -/
def piecesOf (maxTokens overlapTokens : Nat) (s : Section) : List Str :=
  if strip s.body = [] then [] else pack (splitParagraphs s.body) maxTokens overlapTokens

variable {maxTokens overlapTokens : Nat} {s : Section}

/-- A piece opens with a solid character, and pieces hold the content of their section. -/
structure Cut (s : Section) (pieces : List Str) : Prop where
  solid : ∀ piece ∈ pieces, ∃ c rest, piece = c :: rest ∧ isSpace c = false
  kept : (content s.body).Sublist (pieces.flatMap content)
  opening : ∀ piece ∈ pieces.head?, (content piece).head? = (content s.body).head?

theorem trimmed_opens {t : Str} (trimmed : strip t = t) (some : t ≠ []) :
    ∃ c rest, t = c :: rest ∧ isSpace c = false := by
  cases t with
  | nil => exact absurd rfl some
  | cons c rest => exact ⟨c, rest, rfl, strip_head c (by rw [trimmed]; rfl)⟩

theorem content_ne_nil {c : Char} {rest : Str} (solid : isSpace c = false) : content (c :: rest) ≠ [] := by
  intro nothing
  have space := content_eq_nil.mp nothing c List.mem_cons_self
  rw [solid] at space
  exact absurd space (by simp)

theorem paragraph_opens {text paragraph : Str} (known : paragraph ∈ splitParagraphs text) :
    ∃ c rest, paragraph = c :: rest ∧ isSpace c = false :=
  trimmed_opens (mem_splitParagraphs known).1 (mem_splitParagraphs known).2

theorem pack_opens {text piece : Str} (member : piece ∈ pack (splitParagraphs text) maxTokens overlapTokens) :
    ∃ c rest, piece = c :: rest ∧ isSpace c = false := by
  rw [pack_eq] at member
  obtain ⟨group, packed, rfl⟩ := List.mem_map.mp member
  cases group with
  | nil => exact absurd rfl (Packing.ne_nil_of_mem_pack _ _ _ _ packed)
  | cons paragraph more =>
      have known := Packing.mem_of_mem_pack _ _ _ _ packed List.mem_cons_self
      obtain ⟨c, rest, rfl, solid⟩ := paragraph_opens known
      obtain ⟨tail, split⟩ := joinParagraphs_cons (c :: rest) more
      exact ⟨c, rest ++ tail, split, solid⟩

theorem pack_keeps (text : Str) :
    (content text).Sublist ((pack (splitParagraphs text) maxTokens overlapTokens).flatMap content) := by
  rw [pack_eq, ← content_splitParagraphs, List.flatMap_map]
  have kept :=
    (Packing.sublist_pack countTokens maxTokens overlapTokens (splitParagraphs text)).flatMap content
  rw [List.flatten_eq_flatMap, List.flatMap_assoc] at kept
  simpa only [content_joinParagraphs, id] using kept

/-- The first piece opens with the first paragraph. -/
theorem pack_first {text piece : Str} (some : splitParagraphs text ≠ [])
    (first : piece ∈ (pack (splitParagraphs text) maxTokens overlapTokens).head?) :
    (content piece).head? = (content text).head? := by
  obtain ⟨group, more, packed, filled, opens⟩ :=
    Packing.pack_opening countTokens maxTokens overlapTokens _ some
  rw [pack_eq, packed, List.map_cons, List.head?_cons] at first
  obtain rfl := Option.some.inj first
  cases group with
  | nil => exact absurd rfl filled
  | cons paragraph others =>
      obtain ⟨later, split⟩ := opens
      have known : paragraph ∈ splitParagraphs text := by rw [← split]; simp
      obtain ⟨c, rest, rfl, solid⟩ := paragraph_opens known
      have visible : content (c :: rest) ≠ [] := content_ne_nil solid
      rw [content_joinParagraphs, ← content_splitParagraphs, ← split, List.cons_append,
        List.flatMap_cons, List.flatMap_cons, List.head?_append_of_ne_nil _ visible,
        List.head?_append_of_ne_nil _ visible]

theorem splitParagraphs_ne_nil {text : Str} (solid : strip text ≠ []) : splitParagraphs text ≠ [] := by
  intro nothing
  have blank : content text = [] := by rw [← content_splitParagraphs, nothing]; rfl
  exact solid (strip_eq_nil.mpr (content_eq_nil.mp blank))

theorem piecesOf_eq_nil : piecesOf maxTokens overlapTokens s = [] ↔ strip s.body = [] := by
  rw [piecesOf]
  split
  · rename_i blank
    exact iff_of_true rfl blank
  · rename_i solid
    refine iff_of_false ?_ solid
    obtain ⟨group, more, packed, -⟩ :=
      Packing.pack_opening countTokens maxTokens overlapTokens _ (splitParagraphs_ne_nil solid)
    simp [pack_eq, packed]

theorem piecesOf_cut : Cut s (piecesOf maxTokens overlapTokens s) := by
  rw [piecesOf]
  split
  · rename_i blank
    have nothing : content s.body = [] := content_eq_nil.mpr (strip_eq_nil.mp blank)
    exact ⟨by simp, by simp [nothing], by simp⟩
  · rename_i solidBody
    exact ⟨fun _ member => pack_opens member, pack_keeps s.body,
      fun _ first => pack_first (splitParagraphs_ne_nil solidBody) first⟩

variable {α : Type}

/-- What indexing reads of a chunk. -/
def entry (chunk : Chunk α) : Option Str × Str := (chunk.sectionName, chunk.text)

theorem addPieces_entries (name : Option Str) (pieces : List Str) (chunks : List (Chunk α)) :
    (pieces.foldl (addPiece name) chunks).map entry = chunks.map entry ++ pieces.map (name, ·) := by
  induction pieces generalizing chunks with
  | nil => simp
  | cons piece pieces ih => simp [ih, addPiece, entry]

theorem addSections_entries (sections : List Section) (chunks : List (Chunk α)) :
    (sections.foldl (addSection maxTokens overlapTokens) chunks).map entry =
      chunks.map entry ++
        sections.flatMap fun s => (piecesOf maxTokens overlapTokens s).map (s.heading, ·) := by
  induction sections generalizing chunks with
  | nil => simp
  | cons s sections ih =>
      have here : (addSection maxTokens overlapTokens chunks s).map entry =
          chunks.map entry ++ (piecesOf maxTokens overlapTokens s).map (s.heading, ·) := by
        simp only [addSection, piecesOf]
        split
        · simp
        · exact addPieces_entries s.heading _ chunks
      rw [List.foldl_cons, ih, here, List.flatMap_cons, List.append_assoc]

/-- The pieces of all sections, each with the heading of its section. -/
def sectionPieces (maxTokens overlapTokens : Nat) (text : Str) : List (Option Str × Str) :=
  (splitSections text).flatMap fun s => (piecesOf maxTokens overlapTokens s).map (s.heading, ·)

theorem chunkDoc_entries (parse : Str → List Event) (title body : Str) :
    (chunkDoc parse title body maxTokens overlapTokens : List (Chunk α)).map entry =
      if sectionPieces maxTokens overlapTokens (clean parse body) = [] ∧ strip (clean parse body) ≠ [] then
        [(none, strip (clean parse body))]
      else sectionPieces maxTokens overlapTokens (clean parse body) := by
  have sections := @addSections_entries maxTokens overlapTokens α (splitSections (clean parse body)) []
  rw [List.map_nil, List.nil_append] at sections
  rw [chunkDoc, sectionPieces, ← sections]
  simp only [List.map_eq_nil_iff]
  split <;> rfl

/-- What is true of the chunks that are cut from a text. -/
structure Sound (e : Option Str × Str) : Prop where
  named : ∀ name ∈ e.1, name ≠ [] ∧ '\n' ∉ name
  solid : ∃ c rest, e.2 = c :: rest ∧ isSpace c = false

theorem chunkDoc_sound {parse : Str → List Event} {title body : Str} {chunk : Chunk α}
    (member : chunk ∈ chunkDoc parse title body maxTokens overlapTokens) : Sound (entry chunk) := by
  have listed := List.mem_map_of_mem (f := entry) member
  rw [chunkDoc_entries] at listed
  split at listed
  · rename_i whole
    rw [List.mem_singleton.mp listed]
    exact ⟨by simp, trimmed_opens (strip_strip _) whole.2⟩
  · obtain ⟨s, known, inSection⟩ := List.mem_flatMap.mp listed
    obtain ⟨piece, cut, same⟩ := List.mem_map.mp inSection
    rw [← same]
    exact ⟨(splitSections_wellFormed known).named, piecesOf_cut.solid piece cut⟩

theorem rawChunks_doc {parse : Str → List Event} {item : Item α} (isDoc : item.type = "doc".toList) :
    rawChunks parse item =
      chunkDoc parse item.cleanTitle item.bodyText docMaxTokens docOverlapTokens := by
  rw [rawChunks, if_neg (by rw [isDoc]; decide)]

theorem indexedText_suffix (title : Str) (chunk : Chunk α) : chunk.text <:+ indexedText title chunk := by
  simp only [indexedText]
  split
  · exact List.suffix_refl _
  · exact List.suffix_append _ _

theorem addChunks_entries (item : Item α) {raw : List (Chunk α)}
    (solid : ∀ chunk ∈ raw, strip chunk.text ≠ []) (chunks : List (Chunk α)) :
    (raw.foldl (addChunk item) chunks).map entry =
      chunks.map entry ++ raw.map fun chunk => (chunk.sectionName, indexedText item.cleanTitle chunk) := by
  induction raw generalizing chunks with
  | nil => simp
  | cons chunk raw ih =>
      have indexed : strip (indexedText item.cleanTitle chunk) ≠ [] := by
        intro blank
        apply solid chunk List.mem_cons_self
        exact strip_eq_nil.mpr fun c member =>
          strip_eq_nil.mp blank c ((indexedText_suffix _ chunk).subset member)
      rw [List.foldl_cons, ih fun later member => solid later (List.mem_cons_of_mem chunk member)]
      simp [addChunk, indexed, entry]

/-- Every raw chunk of a document is indexed. -/
theorem chunkDocument_entries {parse : Str → List Event} {item : Item α}
    (isDoc : item.type = "doc".toList) :
    (chunkDocument parse item).map entry =
      (chunkDoc parse item.cleanTitle item.bodyText docMaxTokens docOverlapTokens :
          List (Chunk α)).map
        fun chunk => (chunk.sectionName, indexedText item.cleanTitle chunk) := by
  have solid : ∀ chunk ∈ (chunkDoc parse item.cleanTitle item.bodyText docMaxTokens docOverlapTokens : List (Chunk α)),
      strip chunk.text ≠ [] := by
    intro chunk member blank
    obtain ⟨c, rest, opens, solid⟩ := (chunkDoc_sound member).solid
    have space := strip_eq_nil.mp blank c (by rw [show chunk.text = c :: rest from opens]; simp)
    rw [solid] at space
    exact absurd space (by simp)
  rw [chunkDocument, rawChunks_doc isDoc, addChunks_entries item solid, List.map_nil, List.nil_append]

end Nipoto.Chunking
