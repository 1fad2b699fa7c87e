import Nipoto.Retrieval.Elements
import Nipoto.Retrieval.Shown
import Nipoto.Retrieval.TidyLines

/-! # Nested lists in HTML

A tree of `ul` and `ol` lists becomes one line per item, in document order. The
extractor's two stacks follow the open lists; `tidy` keeps the indentation of
the lines that it takes for list items.
-/

namespace Nipoto.Chunking

open Text Text.Regex Text.Gaps Clean

/-- The text of an item, which the parser hands over in some pieces. -/
structure ItemText where
  text : Str
  pieces : List Str
  filled : text ≠ []
  trimmed : strip text = text
  spaced : Spaced text
  whole : pieces.flatten = text

mutual
/-- The items of one list. Under the text of an item stand the lists inside it. -/
inductive Items where
  | nil
  | cons (text : ItemText) (inner : Lists) (rest : Items)

/-- Lists that follow each other, numbered or not. -/
inductive Lists where
  | nil
  | cons (numbered : Bool) (items : Items) (rest : Lists)
end

def listTag (numbered : Bool) : String := if numbered then "ol" else "ul"

mutual
def Items.events : Items → List Event
  | .nil => []
  | .cons text inner rest =>
      .starttag "li" :: (text.pieces.map .data ++ inner.events) ++ .endtag "li" :: rest.events

def Lists.events : Lists → List Event
  | .nil => []
  | .cons numbered items rest =>
      .starttag (listTag numbered) :: items.events ++ .endtag (listTag numbered) :: rest.events
end

/-- What stands before the text of the `number`-th item. -/
def bullet (numbered : Bool) (level number : Nat) : Str :=
  List.replicate (2 * level) ' ' ++ (if numbered then (Nat.repr number).toList ++ ['.', ' '] else ['-', ' '])

mutual
/-- One line per item; the first item has the given number. -/
def Items.lines (numbered : Bool) (level number : Nat) : Items → List Str
  | .nil => []
  | .cons text inner rest =>
      (bullet numbered level number ++ text.text) :: inner.lines (level + 1) ++ rest.lines numbered level (number + 1)

def Lists.lines (level : Nat) : Lists → List Str
  | .nil => []
  | .cons numbered items rest => items.lines numbered level 1 ++ rest.lines level
end

/-- A list with everything inside it. -/
structure ListTree where
  numbered : Bool
  items : Items

namespace ListTree

def events (tree : ListTree) : List Event := (Lists.cons tree.numbered tree.items .nil).events

def lines (tree : ListTree) : List Str := tree.items.lines tree.numbered 0 1

end ListTree

section

variable {x : Extractor} {numbered : Bool} {outer : List String} {items : Nat} {counters : List Nat}

/-- The innermost list, with the number of its last item. -/
structure Inside (x : Extractor) (numbered : Bool) (outer : List String) (items : Nat) (counters : List Nat) : Prop where
  kept : x.skipDepth = 0
  tags : x.listStack = listTag numbered :: outer
  counted : x.itemIndex = items :: counters

/-- A list begins: both stacks grow. -/
def enter (numbered : Bool) (x : Extractor) : Extractor :=
  { x with listStack := listTag numbered :: x.listStack, itemIndex := 0 :: x.itemIndex }

/-- More is written and items are counted; the same lists are open. -/
def proceed (x : Extractor) (parts : List Str) (counters : List Nat) : Extractor :=
  { x with parts, itemIndex := counters }

theorem enter_inside (kept : x.skipDepth = 0) (numbered : Bool) :
    Inside (enter numbered x) numbered x.listStack 0 x.itemIndex := ⟨kept, rfl, rfl⟩

theorem proceed_inside (inside : Inside x numbered outer items counters) (parts : List Str) (counter : Nat) :
    Inside (proceed x parts (counter :: counters)) numbered outer counter counters := ⟨inside.kept, inside.tags, rfl⟩

theorem handle_item (inside : Inside x numbered outer items counters) {number : Nat}
    (next : numbered = true → number = items + 1) :
    ∃ counter, (numbered = true → counter = number) ∧
      x.handle (.starttag "li") =
        proceed x (x.parts ++ [['\n'], bullet numbered outer.length number]) (counter :: counters) := by
  obtain ⟨kept, tags, counted⟩ := inside
  have item : isDropped "li" = false ∧ headings.lookup "li" = none := by decide
  cases numbered with
  | true =>
      refine ⟨number, fun _ => rfl, ?_⟩
      simp [Extractor.handle, Extractor.handleStarttag, item, kept, Extractor.startItem, tags, listTag, counted,
        Extractor.newline, Extractor.emit, bullet, next rfl, proceed]
  | false =>
      refine ⟨items, by simp, ?_⟩
      simp [Extractor.handle, Extractor.handleStarttag, item, kept, Extractor.startItem, tags, listTag, counted,
        Extractor.newline, Extractor.emit, bullet, proceed]

theorem handle_item_end (kept : x.skipDepth = 0) : x.handle (.endtag "li") = x := by
  have item : isDropped "li" = false := by decide
  simp [Extractor.handle, Extractor.handleEndtag, item, kept]

theorem handle_list (kept : x.skipDepth = 0) (numbered : Bool) :
    x.handle (.starttag (listTag numbered)) = enter numbered (if x.listStack = [] then x.newline 2 else x) := by
  have plain : isDropped "ol" = false ∧ headings.lookup "ol" = none ∧ isDropped "ul" = false ∧
    headings.lookup "ul" = none := by decide
  cases numbered <;>
    simp [Extractor.handle, Extractor.handleStarttag, listTag, plain, kept, Extractor.startList, enter]

/-- Both stacks shrink; a list that is in no other one ends its paragraph. -/
theorem handle_list_end (kept : x.skipDepth = 0) (parts : List Str) (counter : Nat) :
    (proceed (enter numbered x) parts (counter :: x.itemIndex)).handle (.endtag (listTag numbered)) =
      if x.listStack = [] then (proceed x parts x.itemIndex).newline 2 else proceed x parts x.itemIndex := by
  have plain : isDropped "ol" = false ∧ isDropped "ul" = false := by decide
  cases numbered <;>
    simp [Extractor.handle, Extractor.handleEndtag, listTag, plain, kept, Extractor.endList, proceed, enter]

theorem text_ready (text : ItemText) (kept : x.skipDepth = 0) (begun : x.parts ≠ []) :
    Element.Ready x text.pieces.flatten := by
  refine ⟨kept, begun, ?_⟩
  intro space
  rw [text.whole] at space
  have solid := strip_head ' ' (by rw [text.trimmed]; exact space)
  exact absurd solid (by decide)

end

mutual
/-- The items of the innermost list write their lines; its counter goes up as it is numbered. -/
theorem Items.feed (items : Items) {x : Extractor} {numbered : Bool} {outer : List String} {count : Nat}
    {counters : List Nat} (inside : Inside x numbered outer count counters) {number : Nat}
    (next : numbered = true → number = count + 1) :
    ∃ parts counter, x.feed items.events = proceed x parts (counter :: counters) ∧
      parts.flatten = x.parts.flatten ++ below (items.lines numbered outer.length number) := by
  cases items with
  | nil => exact ⟨x.parts, count, by rw [← inside.counted]; rfl, by simp [Items.lines, below]⟩
  | cons text inner rest =>
      obtain ⟨counter, agree, opened⟩ := handle_item inside next
      have item := proceed_inside inside (x.parts ++ [['\n'], bullet numbered outer.length number]) counter
      rw [← opened] at item
      have ready : Element.Ready (x.handle (.starttag "li")) text.pieces.flatten :=
        text_ready text item.kept (by simp [opened, proceed])
      obtain ⟨parts, read, wrote⟩ := Element.feed_pieces (text.whole.symm ▸ text.spaced) ready
      have under := proceed_inside inside parts counter
      obtain ⟨parts', fed, wrote'⟩ := Lists.feed inner under.kept (by simp [under.tags])
      have onward : numbered = true → number + 1 = counter + 1 := fun isNumbered => by rw [agree isNumbered]
      have back := proceed_inside inside parts' counter
      obtain ⟨parts'', counter', later, wrote''⟩ := Items.feed rest back onward
      refine ⟨parts'', counter', ?_, ?_⟩
      · have text_read : (x.handle (.starttag "li")).feed (text.pieces.map .data) =
            proceed x parts (counter :: counters) := by
          rw [read, opened]
          rfl
        have done : x.feed (.starttag "li" :: (text.pieces.map .data ++ inner.events)) =
            proceed x parts' (counter :: counters) := by
          rw [Extractor.feed_cons, Extractor.feed_append, text_read, fed]
          rfl
        rw [Items.events, Extractor.feed_append, done, Extractor.feed_cons, handle_item_end back.kept, later]
        rfl
      · have depth : (proceed x parts (counter :: counters)).listStack.length = outer.length + 1 := by
          rw [under.tags, List.length_cons]
        have begun : (x.handle (.starttag "li")).parts.flatten =
            x.parts.flatten ++ '\n' :: bullet numbered outer.length number := by simp [opened, proceed]
        rw [Items.lines, below_append, below_cons, wrote'']
        change parts'.flatten ++ _ = _
        rw [wrote', depth]
        change parts.flatten ++ _ ++ _ = _
        rw [wrote, begun, text.whole]
        simp
termination_by sizeOf items

/-- Lists inside an item write the lines of their items. -/
theorem Lists.feed (lists : Lists) {x : Extractor} (kept : x.skipDepth = 0) (nested : x.listStack ≠ []) :
    ∃ parts, x.feed lists.events = proceed x parts x.itemIndex ∧
      parts.flatten = x.parts.flatten ++ below (lists.lines x.listStack.length) := by
  cases lists with
  | nil => exact ⟨x.parts, rfl, by simp [Lists.lines, below]⟩
  | cons numbered items rest =>
      have first : numbered = true → 1 = 0 + 1 := fun _ => rfl
      obtain ⟨parts, counter, fed, wrote⟩ := Items.feed items (enter_inside kept numbered) first
      have back : (proceed x parts x.itemIndex).skipDepth = 0 := kept
      obtain ⟨parts', later, wrote'⟩ := Lists.feed rest back nested
      refine ⟨parts', ?_, ?_⟩
      · rw [Lists.events, List.cons_append, Extractor.feed_cons, Extractor.feed_append, handle_list kept,
          if_neg nested, fed, Extractor.feed_cons, handle_list_end kept, if_neg nested]
        exact later
      · rw [wrote', Lists.lines, below_append, ← List.append_assoc]
        exact congrArg (· ++ _) wrote
termination_by sizeOf lists
end

theorem written_tree (tree : ListTree) :
    written tree.events = ['\n', '\n'] ++ below tree.lines ++ ['\n', '\n'] := by
  have kept : (({ : Extractor }).newline 2).skipDepth = 0 := rfl
  have first : tree.numbered = true → 1 = 0 + 1 := fun _ => rfl
  obtain ⟨parts, counter, fed, wrote⟩ := Items.feed tree.items (enter_inside kept tree.numbered) first
  have opened : ({ : Extractor }).handle (.starttag (listTag tree.numbered)) =
      enter tree.numbered (({ : Extractor }).newline 2) := handle_list rfl tree.numbered
  have outermost : (({ : Extractor }).newline 2).listStack = [] := rfl
  rw [written, ListTree.events, Lists.events, List.cons_append, Extractor.feed_cons, Extractor.feed_append, opened, fed,
    Extractor.feed_cons, handle_list_end kept, if_pos outermost, Lists.events]
  simp only [Extractor.feed, List.foldl_nil, Extractor.newline, Extractor.emit, proceed, List.flatten_append, wrote]
  rfl

/-- A line of an item at some level. -/
def IsLine (level : Nat) (line : Str) : Prop :=
  ∃ numbered number, ∃ text : ItemText, line = bullet numbered level number ++ text.text

mutual
theorem Items.isLine (items : Items) {numbered : Bool} {level number : Nat} :
    ∀ line ∈ items.lines numbered level number, ∃ deeper, IsLine deeper line := by
  cases items with
  | nil => simp [Items.lines]
  | cons text inner rest =>
      intro line member
      rw [Items.lines, List.mem_append, List.mem_cons] at member
      obtain (rfl | inside) | later := member
      · exact ⟨level, numbered, number, text, rfl⟩
      · exact Lists.isLine inner line inside
      · exact Items.isLine rest line later
termination_by sizeOf items

theorem Lists.isLine (lists : Lists) {level : Nat} :
    ∀ line ∈ lists.lines level, ∃ deeper, IsLine deeper line := by
  cases lists with
  | nil => simp [Lists.lines]
  | cons numbered items rest =>
      intro line member
      rw [Lists.lines, List.mem_append] at member
      cases member with
      | inl inside => exact Items.isLine items line inside
      | inr later => exact Lists.isLine rest line later
termination_by sizeOf lists
end

theorem isDigit_of_isDigit {c : Char} (digit : c.isDigit = true) : isDigit c = true := by
  simp only [Char.isDigit, Bool.and_eq_true, decide_eq_true_eq] at digit
  have low : 48 ≤ c.toNat := UInt32.le_iff_toNat_le.mp digit.1
  have high : c.toNat ≤ 57 := UInt32.le_iff_toNat_le.mp digit.2
  rw [isDigit, List.any_eq_true]
  refine ⟨0x30, by decide, ?_⟩
  simp only [Bool.and_eq_true, decide_eq_true_eq]
  omega

/-- The mark of an item, without its indentation. -/
theorem bullet_eq (numbered : Bool) (level number : Nat) :
    ∃ mark, bullet numbered level number = List.replicate (2 * level) ' ' ++ (mark ++ [' ']) ∧ IsMark mark ∧
      (∀ c ∈ mark, isSpace c = false) ∧ mark ≠ [] := by
  cases numbered with
  | false => exact ⟨['-'], rfl, .inl rfl, by decide, by decide⟩
  | true =>
      refine ⟨(Nat.repr number).toList ++ ['.'], by simp [bullet], .inr (.inr ⟨_, rfl, ?_, ?_⟩), ?_, by simp⟩
      · simp [Nat.toList_repr, Nat.toDigits_ne_nil]
      · exact fun c member => isDigit_of_isDigit (Extractor.digit_of_repr member)
      · intro c member
        cases List.mem_append.mp member with
        | inl digit => exact Extractor.space_not_digit (Extractor.digit_of_repr digit)
        | inr dot =>
            obtain rfl := List.mem_singleton.mp dot
            decide

section

variable {level : Nat} {line : Str} (isLine : IsLine level line)

include isLine

theorem isLine_last : ∀ c ∈ line.getLast?, isSpace c = false := by
  obtain ⟨numbered, number, text, rfl⟩ := isLine
  rw [List.getLast?_append_of_ne_nil _ text.filled]
  exact fun c last => strip_last c (by rw [text.trimmed]; exact last)

theorem isLine_single : '\n' ∉ line := by
  obtain ⟨numbered, number, text, rfl⟩ := isLine
  obtain ⟨mark, split, -, solid, -⟩ := bullet_eq numbered level number
  rw [split]
  have noBreak := text.spaced.no_break
  have inMark : '\n' ∉ mark := fun member => absurd (solid '\n' member) (by decide)
  simp [inMark, noBreak]

theorem isLine_trimmed : trimEnd line = line := by
  rw [trimEnd, List.rdropWhile_eq_self_iff]
  intro some trailing
  have last := isLine_last isLine _ (List.getLast?_eq_some_getLast some)
  rw [isSpace_of_isTrailing trailing] at last
  exact absurd last (by simp)

theorem isLine_shown : blankLine line = false := by
  have last := isLine_last isLine
  obtain ⟨numbered, number, text, rfl⟩ := isLine
  have some : bullet numbered level number ++ text.text ≠ [] := by simp [text.filled]
  rw [blankLine, decide_eq_false_iff_not]
  intro blank
  have solid := last _ (List.getLast?_eq_some_getLast some)
  rw [blank _ (List.getLast_mem some)] at solid
  exact absurd solid (by simp)

end

/-- The item of an outermost list begins with its mark. -/
theorem isLine_outermost {line : Str} (isLine : IsLine 0 line) : ∃ c rest, line = c :: rest ∧ isSpace c = false := by
  obtain ⟨numbered, number, text, rfl⟩ := isLine
  obtain ⟨mark, split, -, solid, some⟩ := bullet_eq numbered 0 number
  obtain ⟨c, mark, rfl⟩ := List.exists_cons_of_ne_nil some
  exact ⟨c, mark ++ ' ' :: text.text, by rw [split]; simp, solid c List.mem_cons_self⟩

theorem isLine_item {level : Nat} {line : Str} (indented : 0 < level) (isLine : IsLine level line) : IsItem line := by
  obtain ⟨numbered, number, text, rfl⟩ := isLine
  obtain ⟨mark, split, marked, -⟩ := bullet_eq numbered level number
  refine isItem_iff.mpr ⟨List.replicate (2 * level) ' ', mark, ' ', text.text, by rw [split]; simp, ?_, ?_, marked, by decide⟩
  · exact List.ne_nil_of_length_pos (by simp [indented])
  · intro c member
    obtain rfl := (List.mem_replicate.mp member).2
    decide

theorem isLine_first {line : Str} (isLine : IsLine 0 line) : strip line = line := by
  have right := rstrip_of_solid_end (isLine_last isLine)
  obtain ⟨c, rest, rfl, solid⟩ := isLine_outermost isLine
  rw [strip_solid solid, ← right, rstrip_cons]
  simp [solid]

/-- An indented line is taken for a list item; one without indentation has nothing to lose. -/
theorem isLine_kept {level : Nat} {line : Str} (isLine : IsLine level line) : tidyLine line = line := by
  have right := rstrip_of_solid_end (isLine_last isLine)
  cases level with
  | succ level => rw [tidyLine_item (isLine_item (Nat.succ_pos level) isLine), right]
  | zero =>
      unfold tidyLine
      split
      · exact right
      · exact isLine_first isLine

theorem isLine_tidied {level : Nat} {line : Str} (isLine : IsLine level line) : Tidied line :=
  ⟨isLine_single isLine, isLine_trimmed isLine, isLine_shown isLine, isLine_kept isLine⟩

/-- Every tree of lists is rendered as one line per item, indented by its level and marked
    with a dash or with its number in its own list. -/
theorem htmlToText_tree (tree : ListTree) : htmlToText tree.events = join ['\n'] tree.lines := by
  have whole := written_tree tree
  have shape := @Items.isLine tree.items tree.numbered 0 1
  have outermost : ∀ line ∈ tree.lines.head?, IsLine 0 line := by
    intro line first
    cases items : tree.items with
    | nil => simp [ListTree.lines, items, Items.lines] at first
    | cons text inner rest =>
        obtain rfl : bullet tree.numbered 0 1 ++ text.text = line := by
          simpa [ListTree.lines, items, Items.lines] using first
        exact ⟨tree.numbered, 1, text, rfl⟩
  change tidy (written tree.events) = _
  change ∀ line ∈ tree.lines, _ at shape
  generalize tree.lines = ls at whole shape outermost ⊢
  cases ls with
  | nil => exact tidy_blank (by rw [whole]; decide)
  | cons line rest =>
      have text : written tree.events =
          join ['\n'] (List.replicate 3 [] ++ (line :: rest) ++ List.replicate 2 []) := by
        have split : List.replicate 3 [] ++ (line :: rest) ++ List.replicate 2 [] =
            List.replicate 3 [] ++ line :: (rest ++ [[], []]) := by simp
        rw [whole, split, join_front, below_append]
        simp [below]
      have tidied : ∀ l ∈ line :: rest, Tidied l := by
        intro l member
        obtain ⟨level, isLine⟩ := shape l member
        exact isLine_tidied isLine
      rw [text]
      exact tidy_framed tidied (isLine_first (outermost line rfl)) 3 2

/-- A word that the parser hands over in one piece. -/
def wordItem (word : Str) (filled : word ≠ []) (solid : ∀ c ∈ word, isSpace c = false) : ItemText where
  text := word
  pieces := [word]
  filled := filled
  trimmed :=
    strip_of_trimmed (fun c first => solid c (List.mem_of_mem_head? first))
      fun c last => solid c (List.mem_of_mem_getLast? last)
  spaced :=
    { spaces := fun c member space => by rw [solid c member] at space; cases space
      single := fun double => absurd (solid ' ' (double.subset (by simp))) (by decide) }
  whole := List.flatten_singleton

/-- A numbered list with a plain one inside, and another numbered one in that. -/
def mixedTree : ListTree where
  numbered := true
  items :=
    .cons
      { text := "a b".toList, pieces := ["a".toList, " b".toList], filled := by decide, trimmed := by decide
        spaced := ⟨by decide, by decide⟩, whole := rfl }
      (.cons false
        (.cons (wordItem "c".toList (by decide) (by decide))
          (.cons true (.cons (wordItem "d".toList (by decide) (by decide)) .nil .nil) .nil) .nil)
        .nil)
      (.cons (wordItem "e".toList (by decide) (by decide)) .nil .nil)

theorem htmlToText_tree_mixed : htmlToText mixedTree.events = "1. a b\n  - c\n    1. d\n2. e".toList :=
  (htmlToText_tree mixedTree).trans (by decide)

end Nipoto.Chunking
