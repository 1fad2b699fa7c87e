import Mathlib.Data.List.Sort
import Nipoto.Text.Regex

/-! # Persian text normalisation

`normalize` of app/retrieval/normalize.py: a pass over single characters, then the
half-space rules, then white space. Ingest and query both call it. `unicodedata`
is not part of the repository, so NFKC is a parameter.
-/

namespace Nipoto.Normalize

open Text Text.Regex

def zwnj : Char := '\u200c'

/-- Code points deleted because they are invisible, tatweel included. -/
def invisible : List (Char × Str) :=
  [0x200B, 0x200D, 0x200E, 0x200F, 0x202A, 0x202B, 0x202C, 0x202D, 0x202E,
    0x2066, 0x2067, 0x2068, 0x2069, 0x00AD, 0xFEFF, 0x0640].map fun n => (Char.ofNat n, [])

/-- Arabic letters with a Persian counterpart, and hamza forms. -/
def letters : List (Char × Str) :=
  [('\u064a', ['\u06cc']), ('\u0649', ['\u06cc']), ('\u0643', ['\u06a9']), ('\u0629', ['\u0647']),
    ('\u0623', ['\u0627']), ('\u0625', ['\u0627']), ('\u0624', ['\u0648']), ('\u0626', ['\u06cc']),
    ('\u06c0', ['\u0647'])]

/-- Persian and Arabic-Indic digits to ASCII, and the two separators. -/
def digits : List (Char × Str) :=
  (List.range 10).map (fun i => (Char.ofNat (0x06F0 + i), [Char.ofNat (0x30 + i)])) ++
    (List.range 10).map (fun i => (Char.ofNat (0x0660 + i), [Char.ofNat (0x30 + i)])) ++
    [('\u066b', ['.']), ('\u066c', [])]

/-- `str.translate`: a character without an entry stays. -/
def translate (table : List (Char × Str)) (text : Str) : Str :=
  text.flatMap fun c => (table.lookup c).getD [c]

def isDiacritic (c : Char) : Bool :=
  let n := c.toNat
  (0x064B ≤ n && n ≤ 0x065F) || n == 0x0670 || (0x06D6 ≤ n && n ≤ 0x06ED)

def diacritics : Pattern := .one isDiacritic

/-- The class `[U+0600-U+06FF]` that decides word boundaries. -/
def isBlock (c : Char) : Bool := 0x0600 ≤ c.toNat && c.toNat ≤ 0x06FF

def suffixes : List Str :=
  ["ها", "های", "هایی", "هایم", "هایت", "هایش", "تر", "تری", "ترین"].map String.toList

def verbStems : List Str :=
  [
    "شود", "شوم", "شوی", "شویم", "شوید", "شوند",
    "شد", "شدم", "شدی", "شدیم", "شدید", "شدند",
    "کند", "کنم", "کنی", "کنیم", "کنید", "کنند",
    "کرد", "کردم", "کردی", "کردیم", "کردید", "کردند",
    "رود", "روم", "روی", "رویم", "روید", "روند",
    "رفت", "رفتم", "رفتی", "رفتیم", "رفتید", "رفتند",
    "آید", "آیم", "آیی", "آییم", "آیید", "آیند",
    "آمد", "آمدم", "آمدی", "آمدیم", "آمدید", "آمدند",
    "تواند", "توانم", "توانی", "توانیم", "توانید", "توانند",
    "توانست", "توانستم", "توانستند", "گیرد", "گیرم", "گیری",
    "گیریم", "گیرید", "گیرند", "گرفت", "گرفتم", "گرفتیم",
    "گرفتند", "دهد", "دهم", "دهی", "دهیم", "دهید",
    "دهند", "داد", "دادم", "دادیم", "دادند", "داند",
    "دانم", "دانی", "دانیم", "دانید", "دانند", "دانست",
    "دانستم", "دانستند", "خواهد", "خواهم", "خواهی", "خواهیم",
    "خواهید", "خواهند", "خواست", "خواستم", "خواستند", "بیند",
    "بینم", "بینی", "بینیم", "بینید", "بینند", "دید",
    "دیدم", "دیدیم", "دیدند", "گوید", "گویم", "گویی",
    "گوییم", "گویید", "گویند", "گفت", "گفتم", "گفتیم",
    "گفتند", "ماند", "مانم", "مانیم", "مانند", "ماندم",
    "رسد", "رسم", "رسیم", "رسند", "رسید", "رسیدم",
    "رسیدند", "باشد", "باشم", "باشی", "باشیم", "باشید",
    "باشند", "شناسد", "شناسم", "شناسیم", "شناسند", "شناخت",
    "فرستد", "فرستم", "فرستیم", "فرستند", "فرستاد", "فرستادم",
    "فرستادند", "پذیرد", "پذیرم", "پذیریم", "پذیرند", "پذیرفت",
    "افتد", "افتم", "افتیم", "افتند", "افتاد", "خورد",
    "خورم", "خوریم", "خورند", "برد", "برم", "بریم",
    "برند", "بردم", "بندد", "بندم", "بندیم", "بندند",
    "بست", "نویسد", "نویسم", "نویسیم", "نویسند", "نوشت"].map String.toList

/-- `sorted(options, key=len, reverse=True)`, which is stable. -/
def longestFirst (options : List Str) : List Str :=
  options.insertionSort fun a b => b.length ≤ a.length

def isSpaceOrZwnj (c : Char) : Bool := c == ' ' || c == zwnj

/-- `(ن?می)` as group 1. -/
def miGroup : Pattern :=
  .group 1 (all [.many 0 (some 1) (· == 'ن'), .one (· == 'م'), .one (· == 'ی')])

def prefixSpaced : Pattern :=
  all [.behind false 1 isBlock, miGroup, .many 1 none isSpaceOrZwnj, .ahead true isBlock]

def prefixAttached : Pattern :=
  all [.behind false 1 isBlock, miGroup, .group 2 (anyOf (longestFirst verbStems)),
    .ahead false isBlock]

def suffixSpaced : Pattern :=
  all [.behind true 2 isBlock, .many 1 none isSpaceOrZwnj, .group 1 (anyOf suffixes),
    .ahead false isBlock]

def zwnjRun : Pattern := .many 2 none (· == zwnj)

def zwnjAtEdge : Pattern :=
  .alt (all [.behind false 1 isBlock, .one (· == zwnj)])
    (all [.one (· == zwnj), .ahead false isBlock])

/-- `[^\S\n]+`. -/
def spaces : Pattern := .many 1 none fun c => isSpace c && c != '\n'

def blankLines : Pattern := .many 3 none (· == '\n')

/-- The character-level steps. -/
def characterSteps (nfkc : Str → Str) (text : Str) : Str :=
  let text := nfkc text
  let text := translate invisible text
  let text := translate letters text
  let text := translate digits text
  sub diacritics (fun _ => []) text

/-- The half-space rules and the removal of stray half-spaces. -/
def halfSpaceSteps (text : Str) : Str :=
  let text := sub prefixSpaced (fun m => m.group 1 ++ [zwnj]) text
  let text := sub prefixAttached (fun m => m.group 1 ++ [zwnj] ++ m.group 2) text
  let text := sub suffixSpaced (fun m => [zwnj] ++ m.group 1) text
  let text := sub zwnjRun (fun _ => [zwnj]) text
  sub zwnjAtEdge (fun _ => []) text

def whitespaceSteps (text : Str) : Str :=
  let text := replaceChar '\t' [' '] text
  let text := sub spaces (fun _ => [' ']) text
  let text := sub blankLines (fun _ => ['\n', '\n']) text
  strip (join ['\n'] ((lines text).map strip))

def normalize (nfkc : Str → Str) (text : Str) : Str :=
  if text = [] then []
  else whitespaceSteps (halfSpaceSteps (characterSteps nfkc text))

end Nipoto.Normalize
