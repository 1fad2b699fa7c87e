import Nipoto.Retrieval.Blocks

/-! # What cleaning shows

Cleaning changes white space only. What an event stream shows is known without
the extractor: a reader follows the open lists with their counters and the
dropped elements, and takes the marks and the visible characters as they come.
-/

namespace Nipoto.Clean

open Text Text.Regex

/-- An open list and the number of its last item; a list without numbers stays at 0. -/
structure OpenList where
  tag : String
  items : Nat

structure Reader where
  skipDepth : Nat := 0
  lists : List OpenList := []

/-- The innermost list gets an item. -/
def countItem : List OpenList → List OpenList
  | [] => []
  | l :: outer => (if l.tag = "ol" then { l with items := l.items + 1 } else l) :: outer

namespace Reader

/-- The number of the next item with its dot, or the bullet. -/
def itemMark (r : Reader) : Str :=
  match r.lists with
  | [] => ['-']
  | l :: _ => if l.tag = "ol" then (Nat.repr (l.items + 1)).toList ++ ['.'] else ['-']

/-- The visible characters that an event adds. -/
def shows (r : Reader) : Event → Str
  | .starttag tag =>
      if r.skipDepth ≠ 0 then []
      else
        match headings.lookup tag with
        | some mark => mark
        | none => if tag = "li" then r.itemMark else []
  | .endtag _ => []
  | .data text => if r.skipDepth ≠ 0 then [] else visible text

def next (r : Reader) : Event → Reader
  | .starttag tag =>
      if isDropped tag then { r with skipDepth := r.skipDepth + 1 }
      else if r.skipDepth ≠ 0 then r
      else if isList tag then { r with lists := ⟨tag, 0⟩ :: r.lists }
      else if tag = "li" then { r with lists := countItem r.lists }
      else r
  | .endtag tag =>
      if isDropped tag then { r with skipDepth := r.skipDepth - 1 }
      else if r.skipDepth ≠ 0 then r
      else if isList tag then { r with lists := r.lists.tail }
      else r
  | .data _ => r

/-- What a stream shows, event by event. -/
def shown (r : Reader) : List Event → Str
  | [] => []
  | event :: rest => r.shows event ++ (r.next event).shown rest

end Reader

namespace Extractor

/-- The handler of an event would read or pop the last counter where there is none. -/
def Raises (x : Extractor) : Event → Prop
  | .starttag tag =>
      isDropped tag = false ∧ x.skipDepth = 0 ∧ tag = "li" ∧ x.listStack.head? = some "ol" ∧ x.itemIndex = []
  | .endtag tag =>
      isDropped tag = false ∧ x.skipDepth = 0 ∧ isList tag = true ∧ x.listStack ≠ [] ∧ x.itemIndex = []
  | .data _ => False

theorem not_raises {x : Extractor} (agree : x.StacksAgree) (event : Event) : ¬ x.Raises event := by
  have together : x.itemIndex = [] → x.listStack = [] := by
    intro none
    rw [StacksAgree, none] at agree
    exact List.length_eq_zero_iff.mp agree
  cases event with
  | starttag tag =>
      rintro ⟨-, -, -, numbered, none⟩
      simp [together none] at numbered
  | endtag tag =>
      rintro ⟨-, -, -, filled, none⟩
      exact filled (together none)
  | data text => exact not_false

/-- The extractor is where the reader is. -/
structure ReadBy (x : Extractor) (r : Reader) : Prop where
  skipped : x.skipDepth = r.skipDepth
  tags : x.listStack = r.lists.map OpenList.tag
  counters : x.itemIndex = r.lists.map OpenList.items

/-- From one extractor to a later one: where the reader is then, and what was shown meanwhile. -/
structure Shows (x y : Extractor) (r : Reader) (text : Str) : Prop where
  read : y.ReadBy r
  wrote : visible y.parts.flatten = visible x.parts.flatten ++ text

variable {x : Extractor} {r : Reader}

theorem visible_emit (x : Extractor) (text : Str) :
    visible (x.emit text).parts.flatten = visible x.parts.flatten ++ visible text := by
  simp [emit, visible_append]

theorem ReadBy.emit (read : x.ReadBy r) (text : Str) : (x.emit text).ReadBy r :=
  ⟨read.skipped, read.tags, read.counters⟩

theorem nothing_shows (read : x.ReadBy r) : Shows x x r [] := ⟨read, (List.append_nil _).symm⟩

theorem newline_shows (read : x.ReadBy r) (count : Nat) : Shows x (x.newline count) r [] := by
  have blank : Blank (List.replicate count '\n') := by
    intro c member
    obtain rfl := (List.mem_replicate.mp member).2
    decide
  refine ⟨read.emit _, ?_⟩
  rw [newline, visible_emit, visible_eq_nil.mpr blank]

theorem startList_shows (read : x.ReadBy r) (tag : String) :
    Shows x (x.startList tag) { r with lists := ⟨tag, 0⟩ :: r.lists } [] := by
  simp only [startList]
  split
  · exact ⟨⟨read.skipped, by simp [newline, emit, read.tags], by simp [newline, emit, read.counters]⟩,
      (newline_shows read 2).wrote⟩
  · exact ⟨⟨read.skipped, by simp [read.tags], by simp [read.counters]⟩, (List.append_nil _).symm⟩

theorem endList_shows (read : x.ReadBy r) : Shows x x.endList { r with lists := r.lists.tail } [] := by
  have closed : ReadBy { x with listStack := x.listStack.tail, itemIndex := x.itemIndex.tail }
      { r with lists := r.lists.tail } :=
    ⟨read.skipped, by simp [read.tags, List.map_tail], by simp [read.counters, List.map_tail]⟩
  simp only [endList]
  split
  · exact ⟨(newline_shows closed 2).read, (newline_shows closed 2).wrote⟩
  · exact ⟨closed, (List.append_nil _).symm⟩

theorem visible_indent (n : Nat) (mark : Str) (solid : ∀ c ∈ mark, isSpace c = false) :
    visible (List.replicate n ' ' ++ (mark ++ [' '])) = mark := by
  have blank : Blank (List.replicate n ' ') := by
    intro c member
    obtain rfl := (List.mem_replicate.mp member).2
    decide
  have space : visible [' '] = [] := by decide
  have kept : visible mark = mark := List.filter_eq_self.mpr fun c member => by simp [solid c member]
  rw [visible_append, visible_append, visible_eq_nil.mpr blank, space, kept, List.append_nil, List.nil_append]

theorem digit_of_repr {n : Nat} {c : Char} (member : c ∈ (Nat.repr n).toList) : c.isDigit = true := by
  rw [Nat.toList_repr] at member
  exact Nat.isDigit_of_mem_toDigits (by decide : 0 < 10) (by decide) member

theorem space_not_digit {c : Char} (digit : c.isDigit = true) : isSpace c = false := by
  simp only [Char.isDigit, Bool.and_eq_true, decide_eq_true_eq] at digit
  have low : 48 ≤ c.toNat := UInt32.le_iff_toNat_le.mp digit.1
  have high : c.toNat ≤ 57 := UInt32.le_iff_toNat_le.mp digit.2
  simp only [isSpace, Bool.or_eq_false_iff, Bool.and_eq_false_iff, decide_eq_false_iff_not, beq_eq_false_iff_ne]
  omega

theorem itemMark_char (r : Reader) : ∀ c ∈ r.itemMark, c = '-' ∨ c = '.' ∨ c.isDigit = true := by
  intro c member
  unfold Reader.itemMark at member
  split at member
  · exact .inl (List.mem_singleton.mp member)
  · split at member
    · cases List.mem_append.mp member with
      | inl digit => exact .inr (.inr (digit_of_repr digit))
      | inr dot => exact .inr (.inl (List.mem_singleton.mp dot))
    · exact .inl (List.mem_singleton.mp member)

theorem itemMark_solid (r : Reader) : ∀ c ∈ r.itemMark, isSpace c = false := by
  intro c member
  obtain rfl | rfl | digit := itemMark_char r c member
  · decide
  · decide
  · exact space_not_digit digit

theorem bullet (outside : r.lists.head?.map OpenList.tag ≠ some "ol") :
    r.itemMark = ['-'] ∧ countItem r.lists = r.lists := by
  cases lists : r.lists with
  | nil => exact ⟨by simp [Reader.itemMark, lists], rfl⟩
  | cons l outer =>
      have other : l.tag ≠ "ol" := by simpa [lists] using outside
      exact ⟨by simp [Reader.itemMark, lists, other], by simp [countItem, other]⟩

theorem startItem_shows (read : x.ReadBy r) :
    Shows x x.startItem { r with lists := countItem r.lists } r.itemMark := by
  have emitted : ∀ y : Extractor, y.parts = (x.newline 1).parts →
      visible (y.emit (List.replicate (2 * (x.listStack.length - 1)) ' ' ++ (r.itemMark ++ [' ']))).parts.flatten =
        visible x.parts.flatten ++ r.itemMark := by
    intro y same
    rw [visible_emit, visible_indent _ _ (itemMark_solid r), same, (newline_shows read 1).wrote, List.append_nil]
  obtain ⟨skipped, tags, counters⟩ := read
  by_cases numbered : x.listStack.head? = some "ol"
  · obtain ⟨l, outer, lists, tag⟩ : ∃ l outer, r.lists = l :: outer ∧ l.tag = "ol" := by
      cases lists : r.lists with
      | nil => simp [tags, lists] at numbered
      | cons l outer => exact ⟨l, outer, rfl, by simpa [tags, lists] using numbered⟩
    have mark : r.itemMark = (Nat.repr (l.items + 1)).toList ++ ['.'] := by simp [Reader.itemMark, lists, tag]
    have inside : (x.newline 1).listStack.head? = some "ol" := numbered
    have item : x.startItem = ({ x.newline 1 with itemIndex := (l.items + 1) :: x.itemIndex.tail }).emit
        (List.replicate (2 * (x.listStack.length - 1)) ' ' ++ (r.itemMark ++ [' '])) := by
      have counter : (x.newline 1).itemIndex.headD 0 = l.items := by simp [newline, emit, counters, lists]
      simp only [startItem, inside, if_true, counter, mark, List.append_assoc]
      rfl
    rw [item]
    exact ⟨⟨skipped, by simp [newline, emit, tags, lists, countItem, tag],
      by simp [newline, emit, counters, lists, countItem, tag]⟩, emitted _ rfl⟩
  · obtain ⟨mark, uncounted⟩ := @bullet r (by simpa [tags] using numbered)
    have outside : (x.newline 1).listStack.head? ≠ some "ol" := numbered
    have item : x.startItem = (x.newline 1).emit
        (List.replicate (2 * (x.listStack.length - 1)) ' ' ++ (r.itemMark ++ [' '])) := by
      rw [startItem, if_neg outside, mark]
      rfl
    rw [item, uncounted]
    exact ⟨⟨skipped, tags, counters⟩, emitted _ rfl⟩

theorem dropped_unmarked {tag : String} (dropped : isDropped tag = true) :
    headings.lookup tag = none ∧ tag ≠ "li" := by
  have every : ∀ t ∈ dropTags ++ furnitureTags, headings.lookup t = none ∧ t ≠ "li" := by decide
  exact every tag (by simpa [isDropped] using dropped)

theorem heading_char {tag : String} {mark : Str} (heading : headings.lookup tag = some mark) : ∀ c ∈ mark, c = '#' := by
  have every : ∀ h ∈ headings, ∀ c ∈ h.2, c = '#' := by decide
  exact every (tag, mark) (Dict.mem_of_lookup heading)

theorem heading_solid {tag : String} {mark : Str} (heading : headings.lookup tag = some mark) :
    ∀ c ∈ mark, isSpace c = false := by
  intro c member
  obtain rfl := heading_char heading c member
  decide

theorem handle_starttag_shows (read : x.ReadBy r) (tag : String) :
    Shows x (x.handle (.starttag tag)) (r.next (.starttag tag)) (r.shows (.starttag tag)) := by
  obtain ⟨skipped, tags, counters⟩ := id read
  cases dropped : isDropped tag with
  | true =>
      have unmarked := dropped_unmarked dropped
      simp only [handle, handleStarttag, Reader.next, Reader.shows, dropped, if_true, unmarked, if_false, ite_self]
      exact ⟨⟨congrArg (· + 1) skipped, tags, counters⟩, (List.append_nil _).symm⟩
  | false =>
      simp only [handle, handleStarttag, Reader.next, Reader.shows, dropped, Bool.false_eq_true, if_false, skipped]
      split
      · exact nothing_shows read
      cases heading : headings.lookup tag with
      | some mark =>
          obtain ⟨-, single, notItem⟩ := heading_tag heading
          simp only [single, notItem, Bool.false_eq_true, if_false]
          have opened := newline_shows read 2
          have shown := visible_indent 0 mark (heading_solid heading)
          refine ⟨opened.read.emit _, ?_⟩
          rw [visible_emit, opened.wrote, List.append_nil]
          exact congrArg _ shown
      | none =>
          simp only
          cases list : isList tag with
          | true =>
              obtain ⟨named, -, notItem⟩ := list_tag list
              simp only [named, notItem, if_true, if_false]
              exact startList_shows read tag
          | false =>
              have unnamed : ¬ (tag = "ul" ∨ tag = "ol") := by simpa [isList] using list
              simp only [unnamed, Bool.false_eq_true, if_false]
              split
              · exact startItem_shows read
              split
              · exact newline_shows read 1
              split
              · exact newline_shows read 2
              · exact nothing_shows read

theorem handle_endtag_shows (read : x.ReadBy r) (tag : String) :
    Shows x (x.handle (.endtag tag)) (r.next (.endtag tag)) [] := by
  obtain ⟨skipped, tags, counters⟩ := id read
  cases dropped : isDropped tag with
  | true =>
      simp only [handle, handleEndtag, Reader.next, dropped, if_true]
      exact ⟨⟨congrArg (· - 1) skipped, tags, counters⟩, (List.append_nil _).symm⟩
  | false =>
      simp only [handle, handleEndtag, Reader.next, dropped, Bool.false_eq_true, if_false, skipped]
      split
      · exact nothing_shows read
      cases list : isList tag with
      | true =>
          simp only [(list_tag list).1, if_true]
          exact endList_shows read
      | false =>
          have unnamed : ¬ (tag = "ul" ∨ tag = "ol") := by simpa [isList] using list
          simp only [unnamed, Bool.false_eq_true, if_false]
          split
          · exact nothing_shows read
          split
          · exact newline_shows read 2
          · exact nothing_shows read

theorem handle_data_shows (read : x.ReadBy r) (text : Str) :
    Shows x (x.handle (.data text)) r (r.shows (.data text)) := by
  have same := visible_fold text
  simp only [handle, handleData, Reader.shows, read.skipped]
  split
  · exact nothing_shows read
  generalize sub whitespaceRun (fun _ => [' ']) text = folded at same
  split
  · refine ⟨read.emit _, ?_⟩
    rw [visible_emit, ← same]
    split
    · rfl
    · rw [visible_lstrip]
  · rename_i solid
    have blank : visible folded = [] := visible_eq_nil.mpr (strip_eq_nil.mp (not_not.mp solid))
    rw [← same, blank]
    split
    · exact ⟨read.emit _, by rw [visible_emit]; rfl⟩
    · exact nothing_shows read

theorem handle_shows (read : x.ReadBy r) (event : Event) :
    Shows x (x.handle event) (r.next event) (r.shows event) := by
  cases event with
  | starttag tag => exact handle_starttag_shows read tag
  | endtag tag => exact handle_endtag_shows read tag
  | data text => exact handle_data_shows read text

theorem feed_shows (read : x.ReadBy r) (events : List Event) :
    visible (x.feed events).parts.flatten = visible x.parts.flatten ++ r.shown events := by
  induction events generalizing x r with
  | nil => exact (List.append_nil _).symm
  | cons event rest ih =>
      have here := handle_shows read event
      rw [feed_cons, ih here.read, here.wrote, Reader.shown, List.append_assoc]

end Extractor

theorem visible_tidy (t : Str) : visible (tidy t) = visible t := by
  rw [← visible_content, content_tidy, visible_content]

/-- Text that is not HTML keeps its visible characters, a stream of events shows what its
    reader takes of it, and no handler fails. -/
theorem clean_shows :
    (∀ (parse : Str → List Event) (body : Str), looksLikeHtml body = false →
      visible (clean parse body) = visible body) ∧
    (∀ events, visible (htmlToText events) = ({ : Reader }).shown events) ∧
    ∀ before event, (({ : Extractor }).feed before).listStack.length = (({ : Extractor }).feed before).itemIndex.length ∧
      ¬ (({ : Extractor }).feed before).Raises event := by
  refine ⟨?_, ?_, ?_⟩
  · intro parse body plain
    rw [← visible_content, content_clean_plain plain, visible_content]
  · intro events
    have start : ({ : Extractor }).ReadBy { } := ⟨rfl, rfl, rfl⟩
    rw [htmlToText, visible_tidy, Extractor.feed_shows start]
    rfl
  · intro before event
    have start : ({ : Extractor }).StacksAgree := rfl
    have agree := Extractor.feed_stacks start before
    exact ⟨agree, Extractor.not_raises agree event⟩

end Nipoto.Clean
