import Nipoto.General.Dict
import Nipoto.Retrieval.Tidy
import Nipoto.Retrieval.Dropped
import Nipoto.Text.Breaks

/-! # Text on the two sides of a block boundary

A tag of a block element writes line breaks, but for the end of a list item and
the tags of a list inside another list: these leave it to the next item.
-/

namespace Nipoto.Clean

open Text Text.Regex

/-- Elements without an end tag. -/
def voidTags : List String :=
  ["area", "base", "br", "col", "embed", "hr", "img", "input", "link", "meta", "source", "track", "wbr"]

inductive WellNested : List Event → Prop where
  | nil : WellNested []
  | data (text : Str) (rest : List Event) : WellNested rest → WellNested (.data text :: rest)
  | void (tag : String) (rest : List Event) :
      voidTags.contains tag = true → WellNested rest → WellNested (.starttag tag :: rest)
  | element (tag : String) (inner rest : List Event) :
      WellNested inner → WellNested rest → WellNested (.starttag tag :: (inner ++ .endtag tag :: rest))

def isList (tag : String) : Bool := tag == "ul" || tag == "ol"

namespace Event

/-- The start or the end of a block element. -/
def ofBlock : Event → Bool
  | starttag tag => blockTags.contains tag
  | endtag tag => blockTags.contains tag
  | data _ => false

/-- How many lists are open after an event. -/
def depthAfter (depth : Nat) : Event → Nat
  | starttag tag => if isList tag then depth + 1 else depth
  | endtag tag => if isList tag then depth - 1 else depth
  | data _ => depth

/-- The start or the end of a block element, with `depth` lists open, that is neither the
    end of an item nor the start or the end of a list inside another list. -/
def endsLine (depth : Nat) : Event → Bool
  | starttag tag => blockTags.contains tag && (!isList tag || depth == 0)
  | endtag tag => blockTags.contains tag && tag != "li" && (!isList tag || depth ≤ 1)
  | data _ => false

end Event

/-- How many lists are open after some events. -/
def listDepth (events : List Event) : Nat := events.foldl Event.depthAfter 0

/-- Some event of a stream that begins with `depth` lists open ends the line. -/
def EndsLine (depth : Nat) (events : List Event) : Prop :=
  ∃ inner tag outer, events = inner ++ tag :: outer ∧ tag.endsLine (inner.foldl Event.depthAfter depth) = true

/-- What the extractor has written after some events. -/
def written (events : List Event) : Str := ({ : Extractor }.feed events).parts.flatten

/-- Two consecutive data events that show something, in a stream without dropped elements. -/
structure Neighbours where
  before : List Event
  first : Str
  between : List Event
  second : Str
  after : List Event
  shown : ¬ Blank first
  shownNext : ¬ Blank second
  consecutive : ∀ text, .data text ∈ between → Blank text
  kept : ∀ event ∈ before ++ .data first :: (between ++ .data second :: after), event.ofDropped = false

namespace Neighbours

variable (n : Neighbours)

def events : List Event := n.before ++ .data n.first :: (n.between ++ .data n.second :: n.after)

/-- A line break of the text stands after the first data and before the second. -/
def LineBreak : Prop :=
  BreakBetween (written (n.before ++ [.data n.first])) (written (n.before ++ .data n.first :: n.between))
    (htmlToText n.events)

/-- With a block boundary between them the two are not on one line. -/
def Apart : Prop := (∃ event ∈ n.between, event.ofBlock = true) → n.LineBreak

/-- Some tag between the two ends the line. -/
def Ended : Prop := EndsLine (listDepth n.before) n.between

end Neighbours

theorem visible_fold (run : Str) : visible (sub Extractor.whitespaceRun (fun _ => [' ']) run) = visible run := by
  apply fold_keeps visible _ []
  intro a w b blank _
  have space : visible [' '] = [] := by decide
  simp only [visible_append, visible_eq_nil.mpr blank, space]

theorem blank_fold (run : Str) : Blank (sub Extractor.whitespaceRun (fun _ => [' ']) run) ↔ Blank run := by
  rw [← visible_eq_nil, visible_fold, visible_eq_nil]

theorem heading_tag {tag : String} {mark : Str} (heading : headings.lookup tag = some mark) :
    tag ∈ blockTags ∧ isList tag = false ∧ tag ≠ "li" := by
  have every : ∀ h ∈ headings, h.1 ∈ blockTags ∧ isList h.1 = false ∧ h.1 ≠ "li" := by decide
  exact every (tag, mark) (Dict.mem_of_lookup heading)

theorem list_tag {tag : String} (list : isList tag = true) :
    (tag = "ul" ∨ tag = "ol") ∧ tag ∈ blockTags ∧ tag ≠ "li" := by
  have named : tag = "ul" ∨ tag = "ol" := by simpa [isList] using list
  refine ⟨named, ?_⟩
  obtain rfl | rfl := named <;> decide

namespace Extractor

/-- From one extractor to a later one: nothing is dropped, so many lists are open, and
    what is written meanwhile has a line break or not. -/
structure Follows (x y : Extractor) (depth : Nat) (breaks : Prop) : Prop where
  kept : y.skipDepth = 0
  nested : y.listStack.length = depth
  wrote : ∃ more, y.parts = x.parts ++ more ∧ ('\n' ∈ more.flatten ↔ breaks)

section

variable {x : Extractor} (kept : x.skipDepth = 0)

include kept

theorem nothing_follows : Follows x x x.listStack.length False := ⟨kept, rfl, [], by simp, by simp⟩

theorem newline_follows (count : Nat) (positive : 0 < count) :
    Follows x (x.newline count) x.listStack.length True := by
  refine ⟨kept, rfl, [List.replicate count '\n'], rfl, ?_⟩
  simp [Nat.ne_of_gt positive]

theorem startItem_follows : Follows x x.startItem x.listStack.length True := by
  simp only [startItem]
  split
  · exact ⟨kept, rfl, _, List.append_assoc _ _ _, by simp⟩
  · exact ⟨kept, rfl, _, List.append_assoc _ _ _, by simp⟩

theorem startList_follows (tag : String) :
    Follows x (x.startList tag) (x.listStack.length + 1) (x.listStack.length = 0) := by
  by_cases outermost : x.listStack = []
  · simp only [startList, outermost, if_true]
    exact ⟨kept, by simp [newline, emit, outermost], [['\n', '\n']], rfl, by simp⟩
  · simp only [startList, outermost, if_false]
    exact ⟨kept, by simp, [], by simp, by simp [outermost]⟩

theorem endList_follows : Follows x x.endList (x.listStack.length - 1) (x.listStack.length ≤ 1) := by
  have last : x.listStack.tail = [] ↔ x.listStack.length ≤ 1 := by
    rw [← List.length_eq_zero_iff, List.length_tail]
    omega
  by_cases outermost : x.listStack.tail = []
  · simp only [endList, outermost, if_true]
    exact ⟨kept, by simp [newline, emit, last.mp outermost], [['\n', '\n']], rfl, by simp [last.mp outermost]⟩
  · simp only [endList, outermost, if_false]
    exact ⟨kept, List.length_tail, [], by simp, by simp [← last, outermost]⟩

theorem handle_starttag {tag : String} (other : isDropped tag = false) :
    Follows x (x.handle (.starttag tag)) ((Event.starttag tag).depthAfter x.listStack.length)
      ((Event.starttag tag).endsLine x.listStack.length = true) := by
  cases heading : headings.lookup tag with
  | some mark =>
      have start : x.handle (.starttag tag) = (x.newline 2).emit (mark ++ [' ']) := by
        simp [handle, handleStarttag, other, kept, heading]
      obtain ⟨block, single, -⟩ := heading_tag heading
      rw [start]
      refine ⟨kept, by simp [newline, emit, Event.depthAfter, single], _, List.append_assoc _ _ _, ?_⟩
      simp [Event.endsLine, block, single]
  | none =>
      have start : x.handle (.starttag tag) =
          if tag = "ul" ∨ tag = "ol" then x.startList tag
          else if tag = "li" then x.startItem
          else if tag = "br" then x.newline 1
          else if blockTags.contains tag then x.newline 2
          else x := by simp [handle, handleStarttag, other, kept, heading]
      rw [start]
      cases list : isList tag with
      | true =>
          obtain ⟨named, block, -⟩ := list_tag list
          simpa [Event.depthAfter, Event.endsLine, list, named, block] using startList_follows kept tag
      | false =>
          have unnamed : ¬ (tag = "ul" ∨ tag = "ol") := by simpa [isList] using list
          simp only [Event.depthAfter, Event.endsLine, list, unnamed, if_false]
          by_cases block : tag ∈ blockTags
          · by_cases item : tag = "li"
            · simpa [item ▸ block, item] using startItem_follows kept
            · by_cases lineBreak : tag = "br"
              · simpa [item, lineBreak ▸ block, lineBreak] using newline_follows kept 1 Nat.one_pos
              · simpa [item, block, lineBreak] using newline_follows kept 2 Nat.two_pos
          · have known : tag ≠ "li" ∧ tag ≠ "br" := by
              constructor <;> rintro rfl <;> exact block (by decide)
            simpa [known, block] using nothing_follows kept

theorem handle_endtag {tag : String} (other : isDropped tag = false) :
    Follows x (x.handle (.endtag tag)) ((Event.endtag tag).depthAfter x.listStack.length)
      ((Event.endtag tag).endsLine x.listStack.length = true) := by
  have ended : x.handle (.endtag tag) =
      if tag = "ul" ∨ tag = "ol" then x.endList
      else if tag = "li" then x
      else if (headings.lookup tag).isSome || blockTags.contains tag then x.newline 2
      else x := by
    rw [handle, handleEndtag, other, if_neg Bool.false_ne_true, if_neg (not_not.mpr kept)]
  rw [ended]
  cases list : isList tag with
  | true =>
      obtain ⟨named, block, notItem⟩ := list_tag list
      simpa [Event.depthAfter, Event.endsLine, list, named, block, notItem] using endList_follows kept
  | false =>
      have unnamed : ¬ (tag = "ul" ∨ tag = "ol") := by simpa [isList] using list
      simp only [Event.depthAfter, Event.endsLine, list, unnamed, if_false]
      by_cases item : tag = "li"
      · simpa [item] using nothing_follows kept
      · by_cases block : tag ∈ blockTags
        · simpa [item, block] using newline_follows kept 2 Nat.two_pos
        · have plain : headings.lookup tag = none := by
            by_contra heading
            obtain ⟨mark, found⟩ := Option.ne_none_iff_exists'.mp heading
            exact block (heading_tag found).1
          simpa [item, block, plain] using nothing_follows kept

/-- Data ends no line, and shows something just if it has a visible character. -/
theorem handle_data (text : Str) :
    ∃ more, x.handle (.data text) = { x with parts := x.parts ++ more } ∧ '\n' ∉ more.flatten ∧
      (Blank more.flatten ↔ Blank text) := by
  have single := fold_single text
  have same := blank_fold text
  have shown : ¬ x.skipDepth ≠ 0 := by simp [kept]
  simp only [handle, handleData, if_neg shown]
  generalize sub whitespaceRun (fun _ => [' ']) text = folded at single same ⊢
  by_cases blank : Blank folded
  · rw [strip_eq_nil.mpr blank]
    by_cases space : folded ≠ [] ∧ x.parts.getLast?.any (fun part => !endsWithBlank part) = true
    · refine ⟨[[' ']], by simp [space, emit], by decide, ?_⟩
      exact iff_of_true (by decide) (same.mp blank)
    · refine ⟨[], by simp [space], by simp, ?_⟩
      exact iff_of_true (by simp [Blank]) (same.mp blank)
  · have solid : strip folded ≠ [] := fun none => blank (strip_eq_nil.mp none)
    by_cases begun : x.parts = []
    · refine ⟨[lstrip folded], by simp [solid, begun, emit], ?_, ?_⟩
      · simpa using fun member => single ((lstrip_suffix folded).subset member)
      · rw [List.flatten_singleton, ← visible_eq_nil, visible_lstrip, visible_eq_nil, same]
    · refine ⟨[folded], by simp [solid, begun, emit], by simpa using single, ?_⟩
      rw [List.flatten_singleton, same]

theorem handle_event {event : Event} (other : event.ofDropped = false) :
    Follows x (x.handle event) (event.depthAfter x.listStack.length) (event.endsLine x.listStack.length = true) := by
  cases event with
  | starttag tag => exact handle_starttag kept other
  | endtag tag => exact handle_endtag kept other
  | data text =>
      obtain ⟨more, handled, single, -⟩ := handle_data kept text
      rw [handled]
      exact ⟨kept, rfl, more, rfl, by simp [single, Event.endsLine]⟩

end

theorem endsLine_nil (depth : Nat) : ¬ EndsLine depth [] := by simp [EndsLine]

theorem endsLine_cons {depth : Nat} {event : Event} {rest : List Event} :
    EndsLine depth (event :: rest) ↔ event.endsLine depth = true ∨ EndsLine (event.depthAfter depth) rest := by
  constructor
  · rintro ⟨inner, tag, outer, split, ends⟩
    cases inner with
    | nil =>
        obtain ⟨rfl, rfl⟩ := List.cons.inj split
        exact .inl ends
    | cons first inner =>
        obtain ⟨rfl, rfl⟩ := List.cons.inj split
        exact .inr ⟨inner, tag, outer, rfl, ends⟩
  · rintro (ends | ⟨inner, tag, outer, rfl, ends⟩)
    · exact ⟨[], event, rest, rfl, ends⟩
    · exact ⟨event :: inner, tag, outer, rfl, ends⟩

theorem feed_follows {x : Extractor} (kept : x.skipDepth = 0) {events : List Event}
    (other : ∀ event ∈ events, event.ofDropped = false) :
    Follows x (x.feed events) (events.foldl Event.depthAfter x.listStack.length)
      (EndsLine x.listStack.length events) := by
  induction events generalizing x with
  | nil => exact ⟨kept, rfl, [], by simp [feed], by simp [endsLine_nil]⟩
  | cons event rest ih =>
      obtain ⟨keptNext, nested, here, wrote, breaks⟩ := handle_event kept (other event List.mem_cons_self)
      obtain ⟨keptAll, nestedAll, later, wroteAll, breaksAll⟩ :=
        ih keptNext fun e member => other e (List.mem_cons_of_mem event member)
      rw [nested] at nestedAll breaksAll
      refine ⟨keptAll, nestedAll, here ++ later, ?_, ?_⟩
      · rw [feed_cons, wroteAll, wrote, List.append_assoc]
      · rw [endsLine_cons, List.flatten_append, List.mem_append, breaks, breaksAll]

/-- Data and the events after it: two parts are written. -/
theorem feed_data {x : Extractor} (kept : x.skipDepth = 0) (text : Str) {events : List Event}
    (other : ∀ event ∈ events, event.ofDropped = false) :
    ∃ p mid, (x.feed [.data text]).parts = x.parts ++ p ∧
      (x.feed (.data text :: events)).parts = x.parts ++ p ++ mid ∧ (x.feed (.data text :: events)).skipDepth = 0 ∧
      '\n' ∉ p.flatten ∧ (Blank p.flatten ↔ Blank text) ∧
      ('\n' ∈ mid.flatten ↔ EndsLine x.listStack.length events) := by
  obtain ⟨p, handled, line, shown⟩ := handle_data kept text
  have keptNext : (x.handle (.data text)).skipDepth = 0 := by
    rw [handled]
    exact kept
  obtain ⟨keptAll, -, mid, wrote, breaks⟩ := feed_follows keptNext other
  refine ⟨p, mid, ?_, ?_, keptAll, line, shown, ?_⟩
  · rw [feed_cons, feed, List.foldl_nil, handled]
  · rw [feed_cons, wrote, handled]
  · rw [breaks, handled]

end Extractor

namespace Neighbours

variable (n : Neighbours)

/-- What is written, cut around the two texts. -/
theorem written_parts :
    ∃ u p mid q v, written (n.before ++ [.data n.first]) = u ++ p ∧
      written (n.before ++ .data n.first :: n.between) = u ++ p ++ mid ∧
      written n.events = u ++ p ++ mid ++ (q ++ v) ∧
      ('\n' ∉ p ∧ ¬ Blank p) ∧ ('\n' ∉ q ∧ ¬ Blank q) ∧ ('\n' ∈ mid ↔ n.Ended) := by
  have start : ({ : Extractor }).skipDepth = 0 := rfl
  obtain ⟨kept, nested, -⟩ := Extractor.feed_follows start
    fun event member => n.kept event (List.mem_append_left _ member)
  obtain ⟨p, mid, first, between, keptBetween, line, shown, breaks⟩ := @Extractor.feed_data _ kept n.first n.between
    fun event member => n.kept event (by simp [member])
  obtain ⟨q, v, -, after, -, lineNext, shownNext, -⟩ := @Extractor.feed_data _ keptBetween n.second n.after
    fun event member => n.kept event (by simp [member])
  have split : n.events = n.before ++ ((.data n.first :: n.between) ++ .data n.second :: n.after) := rfl
  refine ⟨({ : Extractor }.feed n.before).parts.flatten, p.flatten, mid.flatten, q.flatten, v.flatten, ?_, ?_, ?_,
    ⟨line, fun blank => n.shown (shown.mp blank)⟩, ⟨lineNext, fun blank => n.shownNext (shownNext.mp blank)⟩, ?_⟩
  · rw [written, Extractor.feed_append, first, List.flatten_append]
  · rw [written, Extractor.feed_append, between, List.flatten_append, List.flatten_append]
  · rw [written, split, Extractor.feed_append, Extractor.feed_append, after, between]
    simp only [List.flatten_append, List.append_assoc]
  · rw [breaks, nested]
    rfl

theorem lineBreak_iff : n.LineBreak ↔ n.Ended := by
  obtain ⟨u, p, mid, q, v, first, between, whole, ⟨line, shown⟩, ⟨lineNext, shownNext⟩, breaks⟩ := n.written_parts
  have begun : ¬ Blank (u ++ p) := fun blank => shown fun c member => blank c (List.mem_append_right u member)
  have more : (visible (u ++ p ++ mid)).length < (visible (u ++ p ++ mid ++ (q ++ v))).length := by
    have some := List.length_pos_iff.mpr fun none => shownNext (visible_eq_nil.mp none)
    simp only [visible_append, List.length_append]
    omega
  have same : content (htmlToText n.events) = content (u ++ p ++ mid ++ (q ++ v)) := by
    rw [← whole]
    exact content_tidy (written n.events)
  have moreText : (visible (u ++ p ++ mid)).length < (visible (htmlToText n.events)).length := by
    rw [← visible_content (htmlToText n.events), same, visible_content]
    exact more
  rw [LineBreak, first, between, ← breaks, ← breakBetween_iff line shown lineNext shownNext]
  exact ⟨breakBetween_of_content same begun more, breakBetween_of_content same.symm begun moreText⟩

/-- Wherever there is a block boundary between two texts, a line break separates them just
    if some tag between them ends the line. -/
theorem apart_iff_ended : n.Apart ↔ ((∃ event ∈ n.between, event.ofBlock = true) → n.Ended) :=
  imp_congr_right fun _ => n.lineBreak_iff

/-- Text in a list item after an inner list. -/
def afterInnerList : Neighbours where
  before := [.starttag "ul", .starttag "li", .data ['a'], .starttag "ul", .starttag "li"]
  first := ['b']
  between := [.endtag "li", .endtag "ul"]
  second := ['c']
  after := [.endtag "li", .endtag "ul"]
  shown := by decide
  shownNext := by decide
  consecutive := by simp
  kept := by decide

theorem afterInnerList_wellNested : WellNested afterInnerList.events := by
  have inner : WellNested [.starttag "li", .data ['b'], .endtag "li"] :=
    .element "li" [.data ['b']] [] (.data _ _ .nil) .nil
  have item : WellNested [.data ['a'], .starttag "ul", .starttag "li", .data ['b'], .endtag "li", .endtag "ul",
      .data ['c']] := .data _ _ (.element "ul" _ [.data ['c']] inner (.data _ _ .nil))
  exact .element "ul" _ [] (.element "li" _ [] item .nil) .nil

theorem inner_list_text_fused : ¬ ∀ n : Neighbours, WellNested n.events → n.Apart := by
  intro all
  have apart := all afterInnerList afterInnerList_wellNested ⟨.endtag "li", by decide, by decide⟩
  have text : htmlToText afterInnerList.events = "- a\n  - bc".toList := by decide
  rw [LineBreak, text] at apart
  exact absurd apart (by decide)

end Neighbours

end Nipoto.Clean
