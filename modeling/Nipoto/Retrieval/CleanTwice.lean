import Nipoto.Retrieval.Inline
import Nipoto.Retrieval.Shown
import Nipoto.Retrieval.TidyLines
import Nipoto.Text.Interior

/-! # Cleaning a cleaned text

A second cleaning takes the HTML path if the first one has put a tag together
from decoded references. Otherwise it tidies once more, and that changes nothing
just if the first tidying has left no gap and no list item half done.
-/

namespace Nipoto.Clean

open Text Text.Regex Text.Gaps
open Chunking (first_closing htmlTagHint_none)

/-- What `tidy` gets to see: the extractor's text for HTML, else the body with plain line breaks. -/
def untidied (parse : Str → List Event) (body : Str) : Str :=
  if looksLikeHtml body then written (parse body) else unixBreaks body

/-- A visible line, some blank lines, and a visible line again: what tidying makes of the
    last two is left alone by a second tidying. -/
structure Settled (t : Str) : Prop where
  gaps : ∀ a g b, Interior blankLine a g b (lines t) → 2 ≤ g.length → ∀ line ∈ g, ∀ c ∈ line, isTrailing c = true
  items : ∀ a g line b, Interior blankLine a g (line :: b) (lines t) →
    IsItem (if b = [] then line else trimEnd line) → IsItem (rstrip line)

def dataText : List Event → Str
  | [] => []
  | .data text :: rest => text ++ dataText rest
  | _ :: rest => dataText rest

/-- What begins a tag or a character reference. -/
def isMarkup (c : Char) : Bool := c == '<' || c == '&'

/-- The parser takes some markup from a text that looks like HTML, and adds none to its
    data. `html.parser` does since Python 3.13.6, which drops a tag that the end of the
    text leaves open; before, such a tag was reported as data. -/
def TakesTags (parse : Str → List Event) (text : Str) : Prop :=
  looksLikeHtml text = true → (dataText (parse text)).countP isMarkup < text.countP isMarkup

theorem space_not_alpha {c : Char} (alpha : c.isAlpha = true) : isSpace c = false := by
  simp only [Char.isAlpha, Char.isUpper, Char.isLower, Bool.or_eq_true, Bool.and_eq_true, decide_eq_true_eq] at alpha
  have range : 65 ≤ c.toNat ∧ c.toNat ≤ 122 := by
    rcases alpha with ⟨low, high⟩ | ⟨low, high⟩
    · have low' : 65 ≤ c.toNat := UInt32.le_iff_toNat_le.mp low
      have high' : c.toNat ≤ 90 := UInt32.le_iff_toNat_le.mp high
      omega
    · have low' : 97 ≤ c.toNat := UInt32.le_iff_toNat_le.mp low
      have high' : c.toNat ≤ 122 := UInt32.le_iff_toNat_le.mp high
      omega
  simp only [isSpace, Bool.or_eq_false_iff, Bool.and_eq_false_iff, decide_eq_false_iff_not, beq_eq_false_iff_ne]
  omega

/-- How much of a tag has been read. -/
inductive Seen where
  | nothing | angle | tag | closed
  deriving DecidableEq

namespace Seen

def isOpener (c : Char) : Bool := c.isAlpha || c == '/' || c == '!'

def next : Seen → Char → Seen
  | nothing, c => if c = '<' then angle else nothing
  | angle, c => if isOpener c then tag else if c = '<' then angle else nothing
  | tag, c => if c = '>' then closed else tag
  | closed, _ => closed

/-- What white space makes of a state. -/
def settle : Seen → Seen
  | angle => nothing
  | s => s

@[simp] theorem settle_settle (s : Seen) : s.settle.settle = s.settle := by cases s <;> rfl

theorem settle_closed {s : Seen} : s.settle = closed ↔ s = closed := by cases s <;> decide

theorem next_space (s : Seen) {c : Char} (space : isSpace c = true) : s.next c = s.settle := by
  have angle : c ≠ '<' := by rintro rfl; exact absurd space (by decide)
  have closing : c ≠ '>' := by rintro rfl; exact absurd space (by decide)
  have opener : isOpener c = false := by
    rw [Bool.eq_false_iff]
    intro opens
    simp only [isOpener, Bool.or_eq_true, beq_iff_eq] at opens
    obtain (alpha | rfl) | rfl := opens
    · rw [space_not_alpha alpha] at space
      exact absurd space (by simp)
    · exact absurd space (by decide)
    · exact absurd space (by decide)
  cases s <;> simp [next, settle, angle, closing, opener]

theorem foldl_closed (t : Str) : t.foldl next closed = closed := by
  induction t with
  | nil => rfl
  | cons c t ih => exact ih

theorem foldl_tag (t : Str) : t.foldl next tag = closed ↔ '>' ∈ t := by
  induction t with
  | nil => decide
  | cons c t ih =>
      by_cases closing : c = '>'
      · simp [next, closing, foldl_closed]
      · simpa [next, closing, Ne.symm closing] using ih

end Seen

theorem htmlTagHint_iff {before rest : Str} {c : Char} :
    (htmlTagHint.matchAt before (c :: rest)).isSome = true ↔
      c = '<' ∧ ∃ d more, rest = d :: more ∧ Seen.isOpener d = true ∧ '>' ∈ more := by
  rw [Option.isSome_iff_ne_none, Ne, Pattern.matchAt_eq_none, not_forall]
  simp only [not_not]
  constructor
  · rintro ⟨e, _, ⟨x, r, split, isOpen, rfl⟩, _, ⟨d, r', split', opens, rfl⟩, f, run, g, ⟨y, r'', split'', isClose, rfl⟩, rfl⟩
    obtain ⟨w, r''', inner, -, -, rfl⟩ := matches_many.mp run
    simp only at split split' split'' inner
    obtain ⟨rfl, rfl⟩ := List.cons.inj split
    obtain rfl : y = '>' := by simpa using isClose
    exact ⟨by simpa using isOpen, d, r', split', opens, by rw [inner, split'']; simp⟩
  · rintro ⟨rfl, d, more, rfl, opens, closing⟩
    obtain ⟨a, b, rfl⟩ := List.append_of_mem closing
    obtain ⟨w, r, split, inside⟩ := first_closing a b
    rw [split]
    exact ⟨_, _, ⟨_, _, rfl, by decide, rfl⟩, _, ⟨_, _, rfl, opens, rfl⟩, _,
      matches_many.mpr ⟨w, '>' :: r, rfl, Nat.zero_le _, inside, rfl⟩, _, ⟨_, _, rfl, by decide, rfl⟩, rfl⟩

theorem occurs_closing {before t : Str} (found : occurs htmlTagHint before t = true) : '>' ∈ t := by
  induction t generalizing before with
  | nil =>
      have empty : htmlTagHint.matchAt before [] = none := htmlTagHint_none (fun c _ inside => by simp at inside) before
      simp [occurs, empty] at found
  | cons c t ih =>
      rw [occurs, Bool.or_eq_true, htmlTagHint_iff] at found
      obtain ⟨-, d, more, rfl, -, closing⟩ | later := found
      · exact List.mem_cons_of_mem _ (List.mem_cons_of_mem _ closing)
      · exact List.mem_cons_of_mem _ (ih later)

theorem occurs_scan (before t : Str) : occurs htmlTagHint before t = true ↔ t.foldl Seen.next .nothing = .closed := by
  induction t generalizing before with
  | nil =>
      have empty : htmlTagHint.matchAt before [] = none := htmlTagHint_none (fun c _ inside => by simp at inside) before
      simp [occurs, empty]
  | cons c t ih =>
      rw [List.foldl_cons]
      by_cases angle : c = '<'
      · subst angle
        cases t with
        | nil => rw [occurs, Bool.or_eq_true, htmlTagHint_iff, ih]; simp [Seen.next]
        | cons d more =>
            cases opens : Seen.isOpener d with
            | true =>
                have scanned : (d :: more).foldl Seen.next .angle = .closed ↔ '>' ∈ more := by
                  rw [List.foldl_cons, Seen.next, if_pos opens, Seen.foldl_tag]
                have isClose : d ≠ '>' := by rintro rfl; exact absurd opens (by decide)
                change _ ↔ (d :: more).foldl Seen.next .angle = .closed
                rw [scanned, occurs, Bool.or_eq_true, htmlTagHint_iff]
                constructor
                · rintro (⟨-, e, rest, split, -, closing⟩ | later)
                  · exact (List.cons.inj split).2 ▸ closing
                  · simpa [isClose.symm] using occurs_closing later
                · exact fun closing => .inl ⟨rfl, d, more, rfl, opens, closing⟩
            | false =>
                have same : Seen.next .angle d = Seen.next .nothing d := by simp [Seen.next, opens]
                change _ ↔ (d :: more).foldl Seen.next .angle = .closed
                rw [List.foldl_cons, same, ← List.foldl_cons, ← ih ('<' :: before), occurs, Bool.or_eq_true,
                  htmlTagHint_iff]
                simp [opens]
      · have same : Seen.next .nothing c = .nothing := by simp [Seen.next, angle]
        rw [occurs, Bool.or_eq_true, htmlTagHint_iff, ih, same]
        simp [angle]

theorem looksLikeHtml_scan (t : Str) : looksLikeHtml t = true ↔ t.foldl Seen.next .nothing = .closed :=
  occurs_scan [] t

theorem scan_blank {w : Str} (blank : Blank w) (s : Seen) : (w.foldl Seen.next s).settle = s.settle := by
  induction w generalizing s with
  | nil => rfl
  | cons c w ih =>
      rw [List.foldl_cons, ih fun d member => blank d (List.mem_cons_of_mem c member),
        s.next_space (blank c List.mem_cons_self), Seen.settle_settle]

theorem scan_indent {w : Str} (blank : Blank w) (s : Seen) : w.foldl Seen.next s.settle = s.settle := by
  induction w with
  | nil => rfl
  | cons c w ih =>
      rw [List.foldl_cons, Seen.next_space _ (blank c List.mem_cons_self), Seen.settle_settle,
        ih fun d member => blank d (List.mem_cons_of_mem c member)]

theorem scan_strip (line : Str) (s : Seen) :
    (line.foldl Seen.next s.settle).settle = ((strip line).foldl Seen.next s.settle).settle := by
  have front : line.takeWhile isSpace ++ lstrip line = line := List.takeWhile_append_dropWhile
  have back : rstrip (lstrip line) ++ (lstrip line).rtakeWhile isSpace = lstrip line :=
    List.rdropWhile_append_rtakeWhile
  calc (line.foldl Seen.next s.settle).settle
      = ((lstrip line).foldl Seen.next s.settle).settle := by
        rw [← front, List.foldl_append, scan_indent fun c member => List.mem_takeWhile_imp member, front]
    _ = ((strip line).foldl Seen.next s.settle).settle := by
        rw [← back, List.foldl_append, scan_blank fun c member => List.mem_rtakeWhile_imp member]
        rfl

/-- Only the stripped lines matter. -/
theorem scan_content (t : Str) (s : Seen) :
    (t.foldl Seen.next s.settle).settle = (content t).foldl (fun s line => (line.foldl Seen.next s).settle) s.settle := by
  induction t using line_induction generalizing s with
  | single line noBreak =>
      rw [scan_strip, content_line noBreak]
      split
      · rename_i empty
        rw [empty]
        exact s.settle_settle
      · rfl
  | parted a b first second =>
      rw [content_break, List.foldl_append, List.foldl_append, List.foldl_cons, Seen.next_space _ (by decide), second,
        first]

theorem looksLikeHtml_tidy (t : Str) : looksLikeHtml (tidy t) = looksLikeHtml t := by
  have start : Seen.nothing = Seen.nothing.settle := rfl
  rw [Bool.eq_iff_iff, looksLikeHtml_scan, looksLikeHtml_scan, start, ← Seen.settle_closed, ← @Seen.settle_closed (t.foldl _ _),
    scan_content, scan_content, content_tidy]

theorem trimEnd_eq_nil {line : Str} : trimEnd line = [] ↔ ∀ c ∈ line, isTrailing c = true :=
  List.rdropWhile_eq_nil_iff

theorem rstrip_trimEnd (line : Str) : rstrip (trimEnd line) = rstrip line := by
  induction line with
  | nil => rfl
  | cons c line ih =>
      rw [trimEnd_cons]
      split
      · rename_i gone
        have blank : Blank (c :: line) := by
          intro d member
          rcases List.mem_cons.mp member with rfl | later
          · exact isSpace_of_isTrailing gone.2
          · exact isSpace_of_isTrailing (trimEnd_eq_nil.mp gone.1 d later)
        exact (rstrip_eq_nil.mpr blank).symm
      · rw [rstrip_cons, rstrip_cons, ih]

theorem blankLine_trimEnd (line : Str) : blankLine (trimEnd line) = blankLine line := by
  rw [Bool.eq_iff_iff, blankLine_iff, blankLine_iff, ← rstrip_eq_nil, rstrip_trimEnd, rstrip_eq_nil]

theorem trimEnds_append (a : List Str) {b : List Str} (some : b ≠ []) :
    trimEnds (a ++ b) = a.map trimEnd ++ trimEnds b := by
  induction a with
  | nil => rfl
  | cons line a ih => rw [List.cons_append, trimEnds_cons _ (by simp [some]), ih, List.map_cons, List.cons_append]

theorem trimEnds_first (line : Str) (b : List Str) :
    ∃ b', trimEnds (line :: b) = (if b = [] then line else trimEnd line) :: b' := by
  cases b with
  | nil => exact ⟨[], rfl⟩
  | cons next b => exact ⟨trimEnds (next :: b), rfl⟩

theorem split_trimEnds {a b ls : List Str} (some : b ≠ []) (split : trimEnds ls = a ++ b) :
    ∃ a' b', ls = a' ++ b' ∧ a = a'.map trimEnd ∧ b = trimEnds b' := by
  induction a generalizing ls with
  | nil => exact ⟨[], ls, rfl, rfl, split.symm⟩
  | cons line a ih =>
      cases ls with
      | nil => exact absurd split (by simp [trimEnds])
      | cons first rest =>
          have more : rest ≠ [] := by
            rintro rfl
            have few := congrArg List.length split
            have long := List.length_pos_iff.mpr some
            simp only [trimEnds, List.length_cons, List.length_append, List.length_nil] at few
            omega
          rw [trimEnds_cons _ more, List.cons_append] at split
          obtain ⟨rfl, later⟩ := List.cons.inj split
          obtain ⟨a', b', rfl, rfl, rfl⟩ := ih later
          exact ⟨first :: a', b', rfl, rfl, rfl⟩

theorem gap_trimEnd {g : List Str} : IsGap blankLine (g.map trimEnd) ↔ IsGap blankLine g := by
  simp only [IsGap, List.forall_mem_map, blankLine_trimEnd]

theorem shown_trimEnd {a : List Str} :
    (∃ line ∈ (a.map trimEnd).getLast?, blankLine line = false) ↔ ∃ line ∈ a.getLast?, blankLine line = false := by
  rw [List.getLast?_map]
  constructor
  · rintro ⟨line, last, shown⟩
    obtain ⟨old, atEnd, rfl⟩ := Option.map_eq_some_iff.mp last
    exact ⟨old, atEnd, by rwa [blankLine_trimEnd] at shown⟩
  · rintro ⟨line, last, shown⟩
    exact ⟨trimEnd line, Option.map_eq_some_iff.mpr ⟨line, last, rfl⟩, by rwa [blankLine_trimEnd]⟩

/-- The gaps between the trimmed lines are the trimmed gaps. -/
theorem interior_trimEnds {a g b : List Str} {line : Str} {ls : List Str} (interior : Interior blankLine a g (line :: b) ls) :
    ∃ b', Interior blankLine (a.map trimEnd) (g.map trimEnd)
      ((if b = [] then line else trimEnd line) :: b') (trimEnds ls) := by
  obtain ⟨split, gap, left, right⟩ := interior
  obtain ⟨b', first⟩ := trimEnds_first line b
  have shown : blankLine line = false := by simpa using right
  refine ⟨b', ?_, gap_trimEnd.mpr gap, shown_trimEnd.mpr left, _, rfl, ?_⟩
  · rw [split, trimEnds_append a (by simp), trimEnds_append g (by simp), first]
  · split
    · exact shown
    · rw [blankLine_trimEnd, shown]

theorem interior_of_trimEnds {a g b : List Str} {line : Str} {ls : List Str}
    (interior : Interior blankLine a g (line :: b) (trimEnds ls)) :
    ∃ a' g' line' b', Interior blankLine a' g' (line' :: b') ls ∧ g = g'.map trimEnd ∧
      line = if b' = [] then line' else trimEnd line' := by
  obtain ⟨split, gap, left, right⟩ := interior
  obtain ⟨a', rest, rfl, rfl, split'⟩ := split_trimEnds (by simp) split
  obtain ⟨g', rest', rfl, rfl, split''⟩ := split_trimEnds (by simp) split'.symm
  cases rest' with
  | nil => exact absurd split'' (by simp [trimEnds])
  | cons line' b' =>
      obtain ⟨b'', first⟩ := trimEnds_first line' b'
      obtain ⟨rfl, rfl⟩ := List.cons.inj (split''.trans first)
      refine ⟨a', g', line', b', ⟨rfl, gap_trimEnd.mp gap, shown_trimEnd.mp left, line', rfl, ?_⟩, rfl, rfl⟩
      have shown : blankLine (if b' = [] then line' else trimEnd line') = false := by simpa using right
      split at shown
      · exact shown
      · rwa [blankLine_trimEnd] at shown

theorem fewEmpty_eq_nil {g : List Str} : fewEmpty g = [] ↔ g = [] := by
  fun_induction fewEmpty g with
  | case1 rest ih => rw [ih]; simp
  | case2 line rest => simp
  | case3 => simp

theorem length_fewEmpty_le (g : List Str) :
    (fewEmpty g).length ≤ 1 ↔ g.length ≤ 1 ∨ ∀ line ∈ g, line = [] := by
  fun_induction fewEmpty g with
  | case1 rest ih =>
      rw [ih]
      constructor
      · rintro (short | empty)
        · obtain rfl : rest = [] := List.length_eq_zero_iff.mp (by simpa using short)
          exact .inr (by simp)
        · exact .inr (by simpa using empty)
      · rintro (short | empty)
        · simp at short
        · exact .inr fun line member => empty line (List.mem_cons_of_mem _ member)
  | case2 line rest other ih =>
      have few : (line :: fewEmpty rest).length ≤ 1 ↔ rest = [] := by rw [List.length_cons, ← fewEmpty_eq_nil]; simp
      rw [few]
      constructor
      · rintro rfl
        exact .inl le_rfl
      · rintro (short | empty)
        · exact List.length_eq_zero_iff.mp (by simpa using short)
        · cases rest with
          | nil => rfl
          | cons next rest =>
              obtain rfl := empty line List.mem_cons_self
              obtain rfl := empty next (by simp)
              exact absurd rfl (other rest rfl)
  | case3 => simp

theorem fewEmpty_replicate (n : Nat) : (fewEmpty (List.replicate n [])).length = min n 1 := by
  induction n with
  | zero => rfl
  | succ n ih =>
      cases n with
      | zero => rfl
      | succ n =>
          rw [List.replicate_succ, List.replicate_succ, fewEmpty, ← List.replicate_succ, ih]
          omega

theorem isItem_first {line : Str} (item : IsItem line) :
    ∃ c rest, rstrip line = c :: rest ∧ isSpace c = true := by
  obtain ⟨indent, mark, d, rest, rfl, some, blank, marked, -⟩ := isItem_iff.mp item
  obtain ⟨c, indent, rfl⟩ := List.exists_cons_of_ne_nil some
  have solid : rstrip (indent ++ (mark ++ d :: rest)) ≠ [] := by
    rw [Ne, rstrip_eq_nil]
    intro all
    have inMark : ∀ e ∈ mark, isSpace e = true := fun e member => all e (by simp [member])
    rcases marked with rfl | rfl | ⟨digits, rfl, -, -⟩
    · exact absurd (inMark '-' (by simp)) (by decide)
    · exact absurd (inMark '*' (by simp)) (by decide)
    · exact absurd (inMark '.' (by simp)) (by decide)
  refine ⟨c, rstrip (indent ++ (mark ++ d :: rest)), ?_, blank c List.mem_cons_self⟩
  rw [List.cons_append, rstrip_cons, if_neg (by simp [solid])]

theorem not_item_strip (line : Str) : ¬ IsItem (strip line) := by
  intro item
  obtain ⟨indent, mark, d, rest, first, some, blank, -⟩ := isItem_iff.mp item
  obtain ⟨c, indent, rfl⟩ := List.exists_cons_of_ne_nil some
  have solid := strip_head c (s := line) (by rw [first]; rfl)
  rw [blank c List.mem_cons_self] at solid
  exact absurd solid (by simp)

theorem tidyLine_twice (line : Str) : tidyLine (tidyLine line) = tidyLine line ↔ (IsItem line → IsItem (rstrip line)) := by
  by_cases item : IsItem line
  · rw [tidyLine_item item]
    by_cases still : IsItem (rstrip line)
    · rw [tidyLine_item still]
      exact iff_of_true (List.rdropWhile_idempotent _ _) fun _ => still
    · rw [tidyLine_other still, strip_rstrip]
      refine iff_of_false ?_ fun all => still (all item)
      intro same
      obtain ⟨c, rest, first, space⟩ := isItem_first item
      have solid := strip_head c (s := line) (by rw [same, first]; rfl)
      rw [space] at solid
      exact absurd solid (by simp)
  · rw [tidyLine_other item, tidyLine_other (not_item_strip line)]
    exact iff_of_true (strip_strip line) fun all => absurd all item

theorem laid_twice (c : Cell Str) :
    laid (laid c) = laid c ↔ (fewEmpty c.1).length ≤ 1 ∧ (IsItem c.2 → IsItem (rstrip c.2)) := by
  rw [← tidyLine_twice]
  simp only [laid, fewEmpty_replicate, Prod.mk.injEq]
  refine and_congr ?_ Iff.rfl
  constructor
  · intro same
    have sizes := congrArg List.length same
    simp only [List.length_replicate] at sizes
    omega
  · intro few
    rw [Nat.min_eq_left few]

section

variable {t v : Str} {g last : List Str} {cs : List (Cell Str)}

theorem blankLine_tidyLine (line : Str) : blankLine (tidyLine line) = blankLine line := by
  rw [Bool.eq_iff_iff, blankLine_iff, blankLine_iff, ← strip_eq_nil, strip_tidyLine, strip_eq_nil]

theorem laid_proper (proper : Proper blankLine cs) : Proper blankLine (cs.map laid) := by
  intro c member
  obtain ⟨old, known, rfl⟩ := List.mem_map.mp member
  refine ⟨?_, by rw [laid, blankLine_tidyLine]; exact (proper old known).2⟩
  intro line inGap
  obtain rfl := (List.mem_replicate.mp inGap).2
  rfl

theorem infix_tidyLine (line : Str) : tidyLine line <:+: line := by
  unfold tidyLine
  split
  · exact (rstrip_isPrefix line).isInfix
  · exact strip_isInfix line

theorem mem_laid {line : Str} (member : line ∈ render (cs.map laid) []) :
    line = [] ∨ ∃ c ∈ cs, line = tidyLine c.2 := by
  rcases mem_render.mp member with ⟨c, known, inGap | solid⟩ | atEnd
  · obtain ⟨old, -, rfl⟩ := List.mem_map.mp known
    exact .inl (List.mem_replicate.mp inGap).2
  · obtain ⟨old, inCells, rfl⟩ := List.mem_map.mp known
    exact .inr ⟨old, inCells, solid⟩
  · exact absurd atEnd List.not_mem_nil

theorem laid_ended (v : Str) (cs : List (Cell Str)) :
    ∀ line ∈ strip v :: render (cs.map laid) [], ∀ c ∈ line.getLast?, isSpace c = false := by
  intro line member
  rcases List.mem_cons.mp member with rfl | later
  · exact strip_last
  · obtain rfl | ⟨c, -, rfl⟩ := mem_laid later
    · simp
    · exact tidyLine_last c.2

/-- The tidied lines in their cells. -/
theorem lines_tidy (proper : Proper blankLine ((g, v) :: cs)) (gapEnd : IsGap blankLine last)
    (whole : trimEnds (lines t) = render ((g, v) :: cs) last) :
    lines (tidy t) = render (([], strip v) :: cs.map laid) [] ∧
      trimEnds (lines (tidy t)) = render (([], strip v) :: cs.map laid) [] ∧
      Proper blankLine (([], strip v) :: cs.map laid) := by
  have old : ∀ line ∈ render ((g, v) :: cs) last, '\n' ∉ line := by
    intro line member lineBreak
    obtain ⟨before, known, front⟩ := mem_trimEnds (whole ▸ member)
    exact lines_single known (front.subset lineBreak)
  have single : ∀ line ∈ strip v :: render (cs.map laid) [], '\n' ∉ line := by
    intro line member lineBreak
    rcases List.mem_cons.mp member with rfl | later
    · exact old v (by simp [render]) ((strip_isInfix v).subset lineBreak)
    · obtain rfl | ⟨c, known, rfl⟩ := mem_laid later
      · exact absurd lineBreak List.not_mem_nil
      · exact old c.2 (mem_render.mpr (.inl ⟨c, List.mem_cons_of_mem _ known, .inr rfl⟩))
          ((infix_tidyLine c.2).subset lineBreak)
  have split : lines (tidy t) = render (([], strip v) :: cs.map laid) [] := by
    rw [tidy_cells proper gapEnd whole, lines, join, List.splitOn_intercalate '\n' single (by simp)]
    rfl
  refine ⟨split, ?_, .cons _ (by simp [IsGap]) ?_ (laid_proper (proper.tail _))⟩
  · rw [split]
    apply trimEnds_of_trimmed
    intro line member
    rw [trimEnd, List.rdropWhile_eq_self_iff]
    intro some trailing
    have solid := laid_ended v cs line member _ (List.getLast?_eq_some_getLast some)
    rw [isSpace_of_isTrailing trailing] at solid
    exact absurd solid (by simp)
  · have shown := (proper.head _).2
    rw [blankLine, decide_eq_false_iff_not, ← strip_eq_nil] at shown ⊢
    rwa [strip_strip]

theorem tidy_twice_cells (proper : Proper blankLine ((g, v) :: cs)) (gapEnd : IsGap blankLine last)
    (whole : trimEnds (lines t) = render ((g, v) :: cs) last) :
    tidy (tidy t) = tidy t ↔ ∀ c ∈ cs, laid (laid c) = laid c := by
  obtain ⟨split, trimmed, properOnce⟩ := lines_tidy proper gapEnd whole
  obtain ⟨splitTwice, -, properTwice⟩ := lines_tidy properOnce (by simp [IsGap]) trimmed
  rw [strip_strip] at splitTwice properTwice
  have same : tidy (tidy t) = tidy t ↔ lines (tidy (tidy t)) = lines (tidy t) := by
    constructor
    · exact congrArg lines
    · intro same
      rw [← join_lines (tidy (tidy t)), same, join_lines]
  have cells : (∀ c ∈ cs, laid (laid c) = laid c) ↔ (cs.map laid).map laid = cs.map laid := by
    rw [List.map_map, List.map_inj_left]
    rfl
  rw [same, cells, splitTwice, split, render_eq_iff _ properTwice properOnce, List.cons.injEq, and_iff_right rfl]

/-- Every gap of the text is the gap of a cell. -/
theorem cell_of_interior (proper : Proper blankLine ((g, v) :: cs)) (gapEnd : IsGap blankLine last)
    (whole : trimEnds (lines t) = render ((g, v) :: cs) last) {a h b : List Str} {line : Str}
    (interior : Interior blankLine a h (line :: b) (lines t)) :
    ∃ c ∈ cs, c.1 = h.map trimEnd ∧ c.2 = if b = [] then line else trimEnd line := by
  obtain ⟨b', trimmed⟩ := interior_trimEnds interior
  rw [whole] at trimmed
  obtain ⟨ds, y, es, rfl, -, rest⟩ := cells_of_interior proper gapEnd trimmed
  exact ⟨_, List.mem_append_right ds List.mem_cons_self, rfl, (List.cons.inj rest).1.symm⟩

/-- And every cell has a gap of the text. -/
theorem interior_of_cell (proper : Proper blankLine ((g, v) :: cs))
    (whole : trimEnds (lines t) = render ((g, v) :: cs) last) {c : Cell Str} (known : c ∈ cs) :
    ∃ a h line b, Interior blankLine a h (line :: b) (lines t) ∧ c.1 = h.map trimEnd ∧
      c.2 = if b = [] then line else trimEnd line := by
  obtain ⟨ds, es, rfl⟩ := List.append_of_mem known
  have interior := @interior_of_cells _ blankLine g c.1 last v c.2 ds es proper
  rw [← whole] at interior
  exact interior_of_trimEnds interior

theorem settled_cells (proper : Proper blankLine ((g, v) :: cs)) (gapEnd : IsGap blankLine last)
    (whole : trimEnds (lines t) = render ((g, v) :: cs) last) :
    (∀ c ∈ cs, laid (laid c) = laid c) ↔ Settled t := by
  simp only [laid_twice]
  constructor
  · intro every
    constructor
    · intro a h b interior long line inGap
      obtain ⟨first, atHead, -⟩ := interior.right
      obtain ⟨b, rfl⟩ := List.head?_eq_some_iff.mp atHead
      obtain ⟨c, known, gap, -⟩ := cell_of_interior proper gapEnd whole interior
      have few := (every c known).1
      rw [gap, length_fewEmpty_le, List.length_map] at few
      rcases few with short | empty
      · omega
      · exact trimEnd_eq_nil.mp (empty _ (List.mem_map_of_mem inGap))
    · intro a h line b interior
      obtain ⟨c, known, -, solid⟩ := cell_of_interior proper gapEnd whole interior
      have kept := (every c known).2
      rw [solid] at kept
      intro item
      have still := kept item
      split at still
      · exact still
      · rwa [rstrip_trimEnd] at still
  · intro settled c known
    obtain ⟨a, h, line, b, old, gap, solid⟩ := interior_of_cell proper whole known
    constructor
    · rw [gap, length_fewEmpty_le, List.length_map]
      by_cases long : 2 ≤ h.length
      · refine .inr fun l member => ?_
        obtain ⟨before, inGap, rfl⟩ := List.mem_map.mp member
        exact trimEnd_eq_nil.mpr (settled.gaps a h _ old long before inGap)
      · exact .inl (by omega)
    · intro item
      have kept := settled.items a h line b old (solid ▸ item)
      rw [solid]
      split
      · exact kept
      · rwa [rstrip_trimEnd]

end

theorem settled_blank {t : Str} (blank : Blank t) : Settled t := by
  have none : ∀ {a g b}, ¬ Interior blankLine a g b (lines t) := by
    rintro a g b ⟨split, -, ⟨line, last, shown⟩, -⟩
    have gap := lines_blank blank line (by rw [split]; exact List.mem_append_left _ (List.mem_of_getLast? last))
    rw [shown] at gap
    exact absurd gap (by simp)
  exact ⟨fun a g b interior => absurd interior none, fun a g line b interior => absurd interior none⟩

theorem blank_of_trimEnds {t : Str} (gap : IsGap blankLine (trimEnds (lines t))) : Blank t := by
  have every : ∀ {ls : List Str}, IsGap blankLine (trimEnds ls) → IsGap blankLine ls := by
    intro ls trimmed
    fun_induction trimEnds ls with
    | case1 | case2 => exact trimmed
    | case3 line next rest ih =>
        rw [IsGap, List.forall_mem_cons, blankLine_trimEnd] at trimmed
        exact List.forall_mem_cons.mpr ⟨trimmed.1, ih trimmed.2⟩
  intro c member
  have inLines : c ∈ below (lines t) := by
    rw [join_above _ (lines_ne_nil t), join_lines]
    exact List.mem_cons_of_mem _ member
  obtain ⟨line, known, inside⟩ := List.mem_flatMap.mp inLines
  rcases List.mem_cons.mp inside with rfl | inLine
  · decide
  · exact blankLine_iff.mp (every gap line known) c inLine

/-- The lines of a text, as far as it has visible ones. -/
theorem exists_cells {t : Str} (shown : ¬ Blank t) :
    ∃ g v cs last, Proper blankLine ((g, v) :: cs) ∧ IsGap blankLine last ∧
      trimEnds (lines t) = render ((g, v) :: cs) last := by
  have proper := cut_proper blankLine (trimEnds (lines t))
  have whole := render_cut blankLine (trimEnds (lines t))
  cases cells : (cut blankLine (trimEnds (lines t))).1 with
  | nil =>
      rw [cells] at whole
      exact absurd (blank_of_trimEnds (whole ▸ proper.2)) shown
  | cons c cs =>
      rw [cells] at proper whole
      exact ⟨c.1, c.2, cs, _, proper.1, proper.2, whole.symm⟩

/-- When tidying a tidied text changes nothing. -/
theorem tidy_twice_iff (t : Str) : tidy (tidy t) = tidy t ↔ Settled t := by
  by_cases blank : Blank t
  · rw [tidy_blank blank]
    exact iff_of_true (tidy_blank fun c member => absurd member List.not_mem_nil) (settled_blank blank)
  obtain ⟨g, v, cs, last, proper, gapEnd, whole⟩ := exists_cells blank
  exact (tidy_twice_cells proper gapEnd whole).trans (settled_cells proper gapEnd whole)

theorem unixBreaks_line {line : Str} (single : '\n' ∉ line) : unixBreaks line = line := by
  fun_induction unixBreaks line with
  | case1 rest => exact absurd (by simp) single
  | case2 c rest _ ih => rw [ih fun member => single (List.mem_cons_of_mem c member)]
  | case3 => rfl

theorem unixBreaks_cons {c : Char} {t : Str} (other : ∀ rest, c = '\r' → t = '\n' :: rest → False) :
    unixBreaks (c :: t) = c :: unixBreaks t := by rw [unixBreaks.eq_2 c t other]

theorem unixBreaks_break {line : Str} (single : '\n' ∉ line) (ended : ∀ c ∈ line.getLast?, isSpace c = false) (t : Str) :
    unixBreaks (line ++ '\n' :: t) = line ++ '\n' :: unixBreaks t := by
  induction line with
  | nil => exact unixBreaks_cons fun rest same => absurd same (by decide)
  | cons c line ih =>
      cases line with
      | nil =>
          have solid : c ≠ '\r' := by
            rintro rfl
            exact absurd (ended '\r' rfl) (by decide)
          rw [List.cons_append, List.nil_append, unixBreaks_cons fun rest same => absurd same solid,
            unixBreaks_cons fun rest same => absurd same (by decide)]
          rfl
      | cons d line =>
          have next := ih (fun member => single (List.mem_cons_of_mem c member)) (by simpa using ended)
          have other : ∀ rest, c = '\r' → d :: line ++ '\n' :: t = '\n' :: rest → False := by
            intro rest _ first
            obtain rfl : d = '\n' := (List.cons.inj first).1
            exact single (by simp)
          rw [List.cons_append, unixBreaks_cons other, next]
          rfl

theorem unixBreaks_ended {t : Str} (ended : ∀ line ∈ lines t, ∀ c ∈ line.getLast?, isSpace c = false) :
    unixBreaks t = t := by
  induction t using split_induction (p := (· == '\n')) with
  | whole line single => exact unixBreaks_line fun member => by simpa using single '\n' member
  | parted line c t single found _ later =>
      obtain rfl : c = '\n' := beq_iff_eq.mp found
      have noBreak : '\n' ∉ line := fun member => by simpa using single '\n' member
      rw [lines_append, lines_whole noBreak] at ended
      rw [unixBreaks_break noBreak (ended line (by simp)),
        later t le_rfl fun l member => ended l (List.mem_append_right _ member)]

/-- A tidied text has plain line breaks. -/
theorem unixBreaks_tidy (t : Str) : unixBreaks (tidy t) = tidy t := by
  by_cases blank : Blank t
  · rw [tidy_blank blank]
    rfl
  obtain ⟨g, v, cs, last, proper, gapEnd, whole⟩ := exists_cells blank
  apply unixBreaks_ended
  rw [(lines_tidy proper gapEnd whole).1]
  exact laid_ended v cs

theorem markup_visible (t : Str) : (visible t).countP isMarkup = t.countP isMarkup := by
  rw [visible, List.countP_filter]
  apply List.countP_congr
  intro c _
  rw [Bool.and_eq_true, and_iff_left_iff_imp]
  intro markup
  obtain rfl | rfl : c = '<' ∨ c = '&' := by simpa [isMarkup] using markup
  · decide
  · decide

theorem itemMark_unmarked (r : Reader) : ∀ c ∈ r.itemMark, isMarkup c = false := by
  intro c member
  obtain rfl | rfl | digit := Extractor.itemMark_char r c member
  · decide
  · decide
  · rw [isMarkup, Bool.or_eq_false_iff, beq_eq_false_iff_ne, beq_eq_false_iff_ne]
    constructor <;> rintro rfl <;> exact absurd digit (by decide)

theorem unmarked_shows (r : Reader) (tag : String) : (r.shows (.starttag tag)).countP isMarkup = 0 := by
  rw [List.countP_eq_zero]
  intro c member
  rw [Bool.not_eq_true]
  simp only [Reader.shows] at member
  split at member
  · exact absurd member List.not_mem_nil
  cases heading : headings.lookup tag with
  | some mark =>
      rw [heading] at member
      obtain rfl := Extractor.heading_char heading c member
      decide
  | none =>
      rw [heading] at member
      simp only at member
      split at member
      · exact itemMark_unmarked r c member
      · exact absurd member List.not_mem_nil

/-- What a stream shows has no more markup than its data. -/
theorem markup_shown (r : Reader) (events : List Event) :
    (r.shown events).countP isMarkup ≤ (dataText events).countP isMarkup := by
  induction events generalizing r with
  | nil => exact le_rfl
  | cons event rest ih =>
      rw [Reader.shown, List.countP_append]
      have later := ih (r.next event)
      cases event with
      | starttag tag => rw [unmarked_shows, Nat.zero_add]; exact later
      | endtag tag => rw [Reader.shows, List.countP_nil, Nat.zero_add]; exact later
      | data text =>
          have here : (r.shows (.data text)).countP isMarkup ≤ text.countP isMarkup := by
            rw [Reader.shows]
            split
            · exact Nat.zero_le _
            · exact (markup_visible text).le
          rw [dataText, List.countP_append]
          omega

theorem markup_htmlToText (events : List Event) :
    (htmlToText events).countP isMarkup ≤ (dataText events).countP isMarkup := by
  have start : ({ : Extractor }).ReadBy { } := ⟨rfl, rfl, rfl⟩
  rw [← markup_visible, htmlToText, visible_tidy, Extractor.feed_shows start]
  exact markup_shown _ events

theorem clean_untidied (parse : Str → List Event) (body : Str) : clean parse body = tidy (untidied parse body) := by
  rw [clean, untidied]
  split
  · rename_i empty
    subst empty
    rfl
  · split
    · rfl
    · rfl

/-- Cleaning twice is cleaning once just for the texts that do not look like HTML before
    they are tidied, and that are settled by one tidying. -/
theorem clean_twice_iff {parse : Str → List Event} {body : Str} (takes : TakesTags parse (clean parse body)) :
    clean parse (clean parse body) = clean parse body ↔
      looksLikeHtml (untidied parse body) = false ∧ Settled (untidied parse body) := by
  rw [clean_untidied parse body] at takes ⊢
  generalize untidied parse body = t at takes ⊢
  rw [← tidy_twice_iff, ← looksLikeHtml_tidy]
  cases html : looksLikeHtml (tidy t) with
  | true =>
      have some : tidy t ≠ [] := by
        intro none
        rw [none] at html
        exact absurd html (by decide)
      refine iff_of_false ?_ (by simp)
      intro same
      rw [clean, if_neg some, if_pos html] at same
      have fewer := takes html
      have more := markup_htmlToText (parse (tidy t))
      rw [same] at more
      omega
  | false =>
      rw [clean_untidied, untidied, if_neg (by simp [html]), unixBreaks_tidy]
      simp

theorem angle_of_html {t : Str} (html : looksLikeHtml t = true) : '<' ∈ t := by
  rw [looksLikeHtml_scan] at html
  by_contra none
  have idle : t.foldl Seen.next .nothing = .nothing := by
    clear html
    induction t with
    | nil => rfl
    | cons c t ih =>
        have other : c ≠ '<' := fun angle => none (angle ▸ List.mem_cons_self)
        rw [List.foldl_cons, Seen.next, if_neg other]
        exact ih fun later => none (List.mem_cons_of_mem c later)
  rw [idle] at html
  exact absurd html (by decide)

/-- A paragraph that shows a tag. -/
def shownTag : Str := "<p>&lt;b&gt;hi&lt;/b&gt;</p>".toList

def boldWord : Str := "<b>hi</b>".toList

/-- What the parser reports of these two texts. -/
def reports (text : Str) : List Event :=
  if text = shownTag then [.starttag "p", .data boldWord, .endtag "p"]
  else if text = boldWord then [.starttag "b", .data ['h', 'i'], .endtag "b"]
  else []

theorem reports_takesTags (text : Str) : TakesTags reports text := by
  intro html
  unfold reports
  split
  · rename_i same
    subst same
    decide
  split
  · rename_i same
    subst same
    decide
  · rw [dataText, List.countP_nil, List.countP_pos_iff]
    exact ⟨'<', angle_of_html html, rfl⟩

/-- A nested list in markdown is settled. -/
theorem clean_twice_nested_list :
    looksLikeHtml (untidied reports "- a\n  - b".toList) = false ∧ Settled (untidied reports "- a\n  - b".toList) :=
  (clean_twice_iff (reports_takesTags (clean reports "- a\n  - b".toList))).mp (by decide)

theorem shown_tag_cleaned_away :
    (∀ text, TakesTags reports text) ∧ clean reports (clean reports shownTag) ≠ clean reports shownTag := by
  refine ⟨reports_takesTags, ?_⟩
  have once : clean reports shownTag = boldWord := by decide
  rw [once]
  decide

end Nipoto.Clean
