import Nipoto.Text.Regex

/-! # HTML to plain text

`_TextExtractor`, `_tidy` and `clean` of app/retrieval/clean.py. The standard
library's HTML parser is the source of the events; attributes, comments and
declarations reach no handler that does anything.
-/

namespace Nipoto.Clean

open Text Text.Regex

/-- Elements whose content is never text. -/
def dropTags : List String := ["script", "style", "noscript", "head", "iframe", "svg", "template"]

/-- Page furniture that must not end up in the knowledge base. -/
def furnitureTags : List String := ["nav", "footer", "header", "aside", "menu", "form"]

def blockTags : List String :=
  ["p", "div", "section", "article", "br", "hr", "tr", "table", "blockquote", "pre",
    "h1", "h2", "h3", "h4", "h5", "h6", "ul", "ol", "li", "dl", "dt", "dd"]

def headings : List (String × Str) :=
  [("h1", "#".toList), ("h2", "##".toList), ("h3", "###".toList), ("h4", "####".toList),
    ("h5", "#####".toList), ("h6", "######".toList)]

/-- `tag in _DROP or tag in _FURNITURE`. -/
def isDropped (tag : String) : Bool := dropTags.contains tag || furnitureTags.contains tag

/-- What the parser reports. -/
inductive Event where
  | starttag (tag : String)
  | endtag (tag : String)
  | data (text : Str)
  deriving DecidableEq

/-- The extractor. Its two stacks have the innermost list first. -/
structure Extractor where
  parts : List Str := []
  skipDepth : Nat := 0
  listStack : List String := []
  itemIndex : List Nat := []
  deriving DecidableEq

namespace Extractor

def emit (x : Extractor) (text : Str) : Extractor := { x with parts := x.parts ++ [text] }

def newline (x : Extractor) (count : Nat) : Extractor := x.emit (List.replicate count '\n')

def startList (x : Extractor) (tag : String) : Extractor :=
  let x := if x.listStack = [] then x.newline 2 else x
  { x with listStack := tag :: x.listStack, itemIndex := 0 :: x.itemIndex }

/-- `<li>`: a number inside `<ol>`, a dash elsewhere, indented by the nesting. -/
def startItem (x : Extractor) : Extractor :=
  let x := x.newline 1
  let indent := List.replicate (2 * (x.listStack.length - 1)) ' '
  if x.listStack.head? = some "ol" then
    let index := x.itemIndex.headD 0 + 1
    let x := { x with itemIndex := index :: x.itemIndex.tail }
    x.emit (indent ++ (Nat.repr index).toList ++ ['.', ' '])
  else x.emit (indent ++ ['-', ' '])

def handleStarttag (x : Extractor) (tag : String) : Extractor :=
  if isDropped tag then { x with skipDepth := x.skipDepth + 1 }
  else if x.skipDepth ≠ 0 then x
  else
    match headings.lookup tag with
    | some mark => (x.newline 2).emit (mark ++ [' '])
    | none =>
        if tag = "ul" ∨ tag = "ol" then x.startList tag
        else if tag = "li" then x.startItem
        else if tag = "br" then x.newline 1
        else if blockTags.contains tag then x.newline 2
        else x

def endList (x : Extractor) : Extractor :=
  let x := { x with listStack := x.listStack.tail, itemIndex := x.itemIndex.tail }
  if x.listStack = [] then x.newline 2 else x

def handleEndtag (x : Extractor) (tag : String) : Extractor :=
  if isDropped tag then { x with skipDepth := x.skipDepth - 1 }
  else if x.skipDepth ≠ 0 then x
  else if tag = "ul" ∨ tag = "ol" then x.endList
  else if tag = "li" then x
  else if (headings.lookup tag).isSome || blockTags.contains tag then x.newline 2
  else x

/-- `[ \t\r\n]+`. -/
def whitespaceRun : Pattern := .many 1 none fun c => c == ' ' || c == '\t' || c == '\r' || c == '\n'

def endsWithBlank (part : Str) : Bool := part.getLast?.any fun c => c == ' ' || c == '\n'

def handleData (x : Extractor) (data : Str) : Extractor :=
  if x.skipDepth ≠ 0 then x
  else
    let text := sub whitespaceRun (fun _ => [' ']) data
    if strip text ≠ [] then x.emit (if x.parts ≠ [] then text else lstrip text)
    else if text ≠ [] ∧ x.parts.getLast?.any (fun part => !endsWithBlank part) then x.emit [' ']
    else x

def handle (x : Extractor) : Event → Extractor
  | .starttag tag => x.handleStarttag tag
  | .endtag tag => x.handleEndtag tag
  | .data text => x.handleData text

def feed (x : Extractor) (events : List Event) : Extractor := events.foldl handle x

end Extractor

/-- The zero of every run of ten decimal digits, category Nd. -/
def decimalZeros : List Nat :=
  [0x30, 0x660, 0x6F0, 0x7C0, 0x966, 0x9E6, 0xA66, 0xAE6, 0xB66, 0xBE6, 0xC66, 0xCE6, 0xD66, 0xDE6,
    0xE50, 0xED0, 0xF20, 0x1040, 0x1090, 0x17E0, 0x1810, 0x1946, 0x19D0, 0x1A80, 0x1A90, 0x1B50,
    0x1BB0, 0x1C40, 0x1C50, 0xA620, 0xA8D0, 0xA900, 0xA9D0, 0xA9F0, 0xAA50, 0xABF0, 0xFF10, 0x104A0,
    0x10D30, 0x11066, 0x110F0, 0x11136, 0x111D0, 0x112F0, 0x11450, 0x114D0, 0x11650, 0x116C0, 0x11730,
    0x118E0, 0x11950, 0x11C50, 0x11D50, 0x11DA0, 0x11F50, 0x16A60, 0x16AC0, 0x16B50, 0x1D7CE, 0x1D7D8,
    0x1D7E2, 0x1D7EC, 0x1D7F6, 0x1E140, 0x1E2F0, 0x1E4F0, 0x1E950, 0x1FBF0]

/-- `\d`. -/
def isDigit (c : Char) : Bool := decimalZeros.any fun first => first ≤ c.toNat && c.toNat < first + 10

def trailingSpace : Pattern :=
  all [.many 1 none fun c => c == ' ' || c == '\t', .one (· == '\n')]

def multiNewline : Pattern := .many 3 none (· == '\n')

/-- `^\s+(?:[-*]|\d+\.)\s`. -/
def listItem : Pattern :=
  all [.start, .many 1 none isSpace,
    .alt (.one fun c => c == '-' || c == '*') (all [.many 1 none isDigit, .one (· == '.')]),
    .one isSpace]

def tidyLine (line : Str) : Str :=
  if (listItem.matchAt [] line).isSome then rstrip line else strip line

def tidy (text : Str) : Str :=
  let text := sub trailingSpace (fun _ => ['\n']) text
  let text := sub multiNewline (fun _ => ['\n', '\n']) text
  strip (join ['\n'] ((lines text).map tidyLine))

def htmlToText (events : List Event) : Str :=
  tidy (({ : Extractor }.feed events).parts.flatten)

/-- `<[a-zA-Z/!][^>]*>`. -/
def htmlTagHint : Pattern :=
  all [.one (· == '<'), .one fun c => c.isAlpha || c == '/' || c == '!', .many 0 none (· != '>'),
    .one (· == '>')]

/-- `re.search`, as a yes or no. -/
def occurs (pattern : Pattern) : Str → Str → Bool
  | before, [] => (pattern.matchAt before []).isSome
  | before, c :: rest => (pattern.matchAt before (c :: rest)).isSome || occurs pattern (c :: before) rest

def looksLikeHtml (text : Str) : Bool := occurs htmlTagHint [] text

/-- `body.replace("\r\n", "\n")`. -/
def unixBreaks : Str → Str
  | '\r' :: '\n' :: rest => '\n' :: unixBreaks rest
  | c :: rest => c :: unixBreaks rest
  | [] => []

/-- `clean`, over the events that the HTML parser makes of a text. -/
def clean (parse : Str → List Event) (body : Str) : Str :=
  if body = [] then []
  else if looksLikeHtml body then htmlToText (parse body)
  else tidy (unixBreaks body)

end Nipoto.Clean
