import Nipoto.General.Packing
import Nipoto.Retrieval.Clean
import Nipoto.Text.Content

/-! # Chunking

app/retrieval/chunk.py. A FAQ entry stays whole, a document is cut at its h2 and
h3 headings, and `chunkDocument` opens each chunk with "title › section".
-/

namespace Nipoto.Chunking

open Text Text.Regex Clean

def faqMaxTokens : Nat := 800

def docMaxTokens : Nat := 500

def docOverlapTokens : Nat := 50

def breadcrumb : Str := " › ".toList

def questionLabel : Str := "پرسش: ".toList

def answerLabel : Str := "پاسخ: ".toList

/-- `^(#{1,6})\s+(.*)$`. -/
def heading : Pattern :=
  all [.start, .group 1 (.many 1 (some 6) (· == '#')), .many 1 none isSpace,
    .group 2 (.many 0 none (· != '\n')), .stop]

/-- `\n{2,}`. -/
def paragraphSplit : Pattern := .many 2 none (· == '\n')

/-- `max(1, round(len(text) / 2.5))`; no length lies halfway between two integers. -/
def countTokens (text : Str) : Nat :=
  if text = [] then 0 else max 1 ((4 * text.length + 5) / 10)

/-- The data that go with an indexed chunk. `α` is the type of the values that are
    handed on unread. -/
structure Metadata (α : Type) where
  documentId : Option α
  visibility : Option α
  type : Str
  title : Str
  sectionName : Option Str
  url : Option α
  position : Nat
  updatedAt : Option α
  deriving DecidableEq

/-- `section` of the source is `sectionName`; no metadata is its empty dictionary. -/
structure Chunk (α : Type) where
  text : Str
  position : Nat
  sectionName : Option Str := none
  metadata : Option (Metadata α) := none
  deriving DecidableEq

/-- `if section`. -/
def truthy (name : Option Str) : Bool := name.any (· ≠ [])

def titlePrefix (title : Str) : Option Str → Str
  | none => title
  | some name => if name ≠ [] ∧ name ≠ title then title ++ breadcrumb ++ name else title

def splitParagraphs (text : Str) : List Str :=
  ((splitAt paragraphSplit text).map strip).filter (· ≠ [])

structure Packer where
  pieces : List Str := []
  current : List Str := []
  currentTokens : Nat := 0

def joinParagraphs (paragraphs : List Str) : Str := join ['\n', '\n'] paragraphs

/-- The walk over `reversed(current)`. -/
def carryBack (overlapTokens : Nat) : List Str → List Str → Nat → List Str × Nat
  | [], carried, total => (carried, total)
  | paragraph :: earlier, carried, total =>
      let tokens := countTokens paragraph
      if overlapTokens < total + tokens then (carried, total)
      else carryBack overlapTokens earlier (paragraph :: carried) (total + tokens)

def carryOver (current : List Str) (overlapTokens : Nat) : List Str × Nat :=
  if overlapTokens = 0 then ([], 0) else carryBack overlapTokens current.reverse [] 0

def addParagraph (maxTokens overlapTokens : Nat) (p : Packer) (paragraph : Str) : Packer :=
  let tokens := countTokens paragraph
  let p :=
    if p.current ≠ [] ∧ maxTokens < p.currentTokens + tokens then
      let (current, currentTokens) := carryOver p.current overlapTokens
      { pieces := p.pieces ++ [joinParagraphs p.current], current, currentTokens }
    else p
  { p with current := p.current ++ [paragraph], currentTokens := p.currentTokens + tokens }

def pack (paragraphs : List Str) (maxTokens : Nat) (overlapTokens : Nat) : List Str :=
  let p := paragraphs.foldl (addParagraph maxTokens overlapTokens) {}
  if p.current ≠ [] then p.pieces ++ [joinParagraphs p.current] else p.pieces

def answerChunk {α : Type} (head : Str) (index : Nat) (piece : Str) : Chunk α :=
  { text := head ++ ['\n'] ++ answerLabel ++ piece, position := index }

def chunkFaq {α : Type} (parse : Str → List Event) (title body : Str) (maxTokens : Nat) :
    List (Chunk α) :=
  let answer := clean parse body
  let head := questionLabel ++ title
  let whole : Chunk α := answerChunk head 0 answer
  if countTokens whole.text ≤ maxTokens then [whole]
  else
    let questionTokens := countTokens head + 2
    (pack (splitParagraphs answer) (max (maxTokens - questionTokens) 1) 0).mapIdx (answerChunk head)

structure Section where
  heading : Option Str
  level : Nat
  body : Str
  deriving DecidableEq

structure Splitter where
  sections : List Section := []
  heading : Option Str := none
  level : Nat := 0
  buffer : List Str := []

/-- The depth and the text of a heading line. -/
def headingOf (line : Str) : Option (Nat × Str) :=
  (heading.matchAt [] (strip line)).map fun found => ((found.group 1).length, found.group 2)

namespace Splitter

def flush (s : Splitter) : Splitter :=
  let body := strip (join ['\n'] s.buffer)
  if body ≠ [] ∨ truthy s.heading then
    { s with sections := s.sections ++ [{ heading := s.heading, level := s.level, body }] }
  else s

def readLine (s : Splitter) (line : Str) : Splitter :=
  match headingOf line with
  | some (depth, text) =>
      if depth = 1 then { s.flush with buffer := [], heading := none, level := 0 }
      else if depth = 2 ∨ depth = 3 then
        { s.flush with buffer := [], heading := some (strip text), level := depth }
      else { s with buffer := s.buffer ++ [line] }
  | none => { s with buffer := s.buffer ++ [line] }

end Splitter

def splitSections (text : Str) : List Section :=
  (((lines text).foldl Splitter.readLine {}).flush).sections.filter fun s =>
    s.body ≠ [] ∨ truthy s.heading

def addPiece {α : Type} (name : Option Str) (chunks : List (Chunk α)) (piece : Str) : List (Chunk α) :=
  chunks ++ [{ text := piece, position := chunks.length, sectionName := name }]

def addSection {α : Type} (maxTokens overlapTokens : Nat) (chunks : List (Chunk α)) (s : Section) :
    List (Chunk α) :=
  if strip s.body = [] then chunks
  else (pack (splitParagraphs s.body) maxTokens overlapTokens).foldl (addPiece s.heading) chunks

def chunkDoc {α : Type} (parse : Str → List Event) (_title body : Str) (maxTokens overlapTokens : Nat) :
    List (Chunk α) :=
  let text := clean parse body
  let chunks := (splitSections text).foldl (addSection maxTokens overlapTokens) []
  if chunks = [] ∧ strip text ≠ [] then [{ text := strip text, position := 0 }] else chunks

/-- A knowledge base item. A missing `type` is `"doc"`, the default of the lookup. -/
structure Item (α : Type) where
  id : Option α := none
  title : Option Str := none
  body : Option Str := none
  type : Str := "doc".toList
  visibility : Option α := none
  url : Option α := none
  updatedAt : Option α := none

variable {α : Type}

def Item.cleanTitle (item : Item α) : Str := strip (item.title.getD [])

def Item.bodyText (item : Item α) : Str := item.body.getD []

def rawChunks (parse : Str → List Event) (item : Item α) : List (Chunk α) :=
  if item.type = "faq".toList then chunkFaq parse item.cleanTitle item.bodyText faqMaxTokens
  else chunkDoc parse item.cleanTitle item.bodyText docMaxTokens docOverlapTokens

/-- The text that is indexed: the title goes in front unless the first line has it. -/
def indexedText (title : Str) (chunk : Chunk α) : Str :=
  if title ≠ [] ∧ contains title (firstLine chunk.text) = true then chunk.text
  else titlePrefix title chunk.sectionName ++ ['\n'] ++ chunk.text

def addChunk (item : Item α) (chunks : List (Chunk α)) (chunk : Chunk α) : List (Chunk α) :=
  let text := indexedText item.cleanTitle chunk
  if strip text = [] then chunks
  else
    chunks ++ [{
      text, position := chunks.length, sectionName := chunk.sectionName
      metadata := some {
        documentId := item.id, visibility := item.visibility, type := item.type
        title := item.cleanTitle, sectionName := chunk.sectionName, url := item.url
        position := chunks.length, updatedAt := item.updatedAt } }]

def chunkDocument (parse : Str → List Event) (item : Item α) : List (Chunk α) :=
  (rawChunks parse item).foldl (addChunk item) []

end Nipoto.Chunking
