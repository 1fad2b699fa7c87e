import Nipoto.Retrieval.Clean

/-! # Dropped elements leave no trace

Scripts, page furniture and whatever is inside them never reach the cleaned text.
The proof needs no more of the extractor than that a positive skip depth freezes
all of its other fields.
-/

namespace Nipoto.Clean

open Text

namespace Event

/-- The start or the end of a dropped element. -/
def ofDropped : Event → Bool
  | starttag tag => isDropped tag
  | endtag tag => isDropped tag
  | data _ => false

end Event

/-- Streams whose dropped elements are balanced and properly nested among
    themselves. Other tags may be unclosed or stray. -/
inductive Balanced : List Event → Prop where
  | nil : Balanced []
  | other (event : Event) (rest : List Event) :
      event.ofDropped = false → Balanced rest → Balanced (event :: rest)
  | element (tag : String) (inner rest : List Event) :
      isDropped tag = true → Balanced inner → Balanced rest →
      Balanced (.starttag tag :: (inner ++ .endtag tag :: rest))

/-- Erase every outermost dropped element with everything inside it. -/
def eraseDropped : Nat → List Event → List Event
  | _, [] => []
  | depth, .starttag tag :: rest =>
      if isDropped tag then eraseDropped (depth + 1) rest
      else if depth = 0 then .starttag tag :: eraseDropped depth rest
      else eraseDropped depth rest
  | depth, .endtag tag :: rest =>
      if isDropped tag then eraseDropped (depth - 1) rest
      else if depth = 0 then .endtag tag :: eraseDropped depth rest
      else eraseDropped depth rest
  | depth, .data text :: rest =>
      if depth = 0 then .data text :: eraseDropped depth rest else eraseDropped depth rest

/-- Streams that differ only inside dropped elements. -/
inductive SameOutside : List Event → List Event → Prop where
  | nil : SameOutside [] []
  | other (event : Event) (rest rest' : List Event) :
      event.ofDropped = false → SameOutside rest rest' → SameOutside (event :: rest) (event :: rest')
  | element (tag : String) (inner inner' rest rest' : List Event) :
      isDropped tag = true → Balanced inner → Balanced inner' → SameOutside rest rest' →
      SameOutside (.starttag tag :: (inner ++ .endtag tag :: rest))
        (.starttag tag :: (inner' ++ .endtag tag :: rest'))

theorem eraseDropped_skips (inner : List Event) (balanced : Balanced inner) (depth : Nat)
    (rest : List Event) : eraseDropped (depth + 1) (inner ++ rest) = eraseDropped (depth + 1) rest := by
  induction balanced generalizing depth rest with
  | nil => rfl
  | other event _ kept _ ih =>
      cases event with
      | starttag tag => simpa [eraseDropped, show isDropped tag = false from kept] using ih depth rest
      | endtag tag => simpa [eraseDropped, show isDropped tag = false from kept] using ih depth rest
      | data text => simpa [eraseDropped] using ih depth rest
  | element tag inner later dropped _ _ ihInner ihLater =>
      simp only [List.cons_append, List.append_assoc, eraseDropped, dropped, if_true]
      rw [ihInner (depth + 1)]
      simp only [eraseDropped, dropped, if_true]
      exact ihLater depth rest

/-- An outermost dropped element goes as a whole. -/
theorem eraseDropped_element {tag : String} (dropped : isDropped tag = true) {inner : List Event}
    (balanced : Balanced inner) (rest : List Event) :
    eraseDropped 0 (.starttag tag :: (inner ++ .endtag tag :: rest)) = eraseDropped 0 rest := by
  simp only [eraseDropped, dropped, if_true]
  rw [eraseDropped_skips inner balanced 0]
  simp only [eraseDropped, dropped, if_true]

theorem eraseDropped_other {event : Event} (kept : event.ofDropped = false) (rest : List Event) :
    eraseDropped 0 (event :: rest) = event :: eraseDropped 0 rest := by
  cases event with
  | starttag tag => simp [eraseDropped, show isDropped tag = false from kept]
  | endtag tag => simp [eraseDropped, show isDropped tag = false from kept]
  | data text => simp [eraseDropped]

theorem SameOutside.erased {events events' : List Event} (same : SameOutside events events') :
    eraseDropped 0 events = eraseDropped 0 events' := by
  induction same with
  | nil => rfl
  | other event rest rest' kept _ ih => rw [eraseDropped_other kept, eraseDropped_other kept, ih]
  | element tag inner inner' rest rest' dropped inside inside' _ ih =>
      rw [eraseDropped_element dropped inside, eraseDropped_element dropped inside', ih]

theorem SameOutside.balanced {events events' : List Event} (same : SameOutside events events') :
    Balanced events ∧ Balanced events' := by
  induction same with
  | nil => exact ⟨.nil, .nil⟩
  | other event rest rest' kept _ ih => exact ⟨.other _ _ kept ih.1, .other _ _ kept ih.2⟩
  | element tag inner inner' rest rest' dropped inside inside' _ ih =>
      exact ⟨.element _ _ _ dropped inside ih.1, .element _ _ _ dropped inside' ih.2⟩

namespace Extractor

theorem handle_skipped {x : Extractor} (skipping : x.skipDepth ≠ 0) {event : Event}
    (kept : event.ofDropped = false) : x.handle event = x := by
  cases event with
  | starttag tag => simp [handle, handleStarttag, show isDropped tag = false from kept, skipping]
  | endtag tag => simp [handle, handleEndtag, show isDropped tag = false from kept, skipping]
  | data text => simp [handle, handleData, skipping]

theorem handle_start {tag : String} (dropped : isDropped tag = true) (x : Extractor) :
    x.handle (.starttag tag) = { x with skipDepth := x.skipDepth + 1 } := by
  simp [handle, handleStarttag, dropped]

theorem handle_end {tag : String} (dropped : isDropped tag = true) (x : Extractor) :
    x.handle (.endtag tag) = { x with skipDepth := x.skipDepth - 1 } := by
  simp [handle, handleEndtag, dropped]

/-- The tag of an element that is neither dropped nor a block writes nothing. -/
theorem handle_unlisted {tag : String} (other : isDropped tag = false) (inline : tag ∉ blockTags) {x : Extractor}
    (kept : x.skipDepth = 0) : x.handle (.starttag tag) = x ∧ x.handle (.endtag tag) = x := by
  have plain : headings.lookup tag = none := by
    rw [List.lookup_eq_none_iff]
    intro heading member
    have block : ∀ h ∈ headings, h.1 ∈ blockTags := by decide
    rw [bne_iff_ne]
    exact fun same => inline (same ▸ block heading member)
  have named : tag ≠ "ul" ∧ tag ≠ "ol" ∧ tag ≠ "li" ∧ tag ≠ "br" := by
    refine ⟨?_, ?_, ?_, ?_⟩ <;> exact fun same => inline (same ▸ by decide)
  simp [handle, handleStarttag, handleEndtag, other, kept, plain, inline, named]

theorem feed_cons (x : Extractor) (event : Event) (rest : List Event) :
    x.feed (event :: rest) = (x.handle event).feed rest := rfl

theorem feed_append (x : Extractor) (first rest : List Event) :
    x.feed (first ++ rest) = (x.feed first).feed rest := List.foldl_append

/-- Inside a dropped element a balanced stream changes nothing. -/
theorem feed_skipped {inner : List Event} (balanced : Balanced inner) {x : Extractor}
    (skipping : x.skipDepth ≠ 0) : x.feed inner = x := by
  induction balanced generalizing x with
  | nil => rfl
  | other event _ kept _ ih => rw [feed_cons, handle_skipped skipping kept, ih skipping]
  | element tag inner rest dropped _ _ ihInner ihRest =>
      rw [feed_cons, handle_start dropped, feed_append, ihInner (by simp), feed_cons, handle_end dropped]
      exact ihRest skipping

/-- A dropped element with all its content changes nothing, wherever it stands. -/
theorem feed_element {tag : String} (dropped : isDropped tag = true) {inner : List Event}
    (balanced : Balanced inner) (x : Extractor) (rest : List Event) :
    x.feed (.starttag tag :: (inner ++ .endtag tag :: rest)) = x.feed rest := by
  rw [feed_cons, handle_start dropped, feed_append, feed_skipped balanced (by simp), feed_cons,
    handle_end dropped]
  rfl

theorem feed_erased {events : List Event} (balanced : Balanced events) (x : Extractor) :
    x.feed events = x.feed (eraseDropped 0 events) := by
  induction balanced generalizing x with
  | nil => rfl
  | other event rest kept _ ih => rw [eraseDropped_other kept, feed_cons, feed_cons, ih]
  | element tag inner rest dropped inside _ _ ihRest =>
      rw [eraseDropped_element dropped inside, feed_element dropped inside, ihRest]

/-- Every open list has its counter, so no handler pops an empty stack. -/
def StacksAgree (x : Extractor) : Prop := x.listStack.length = x.itemIndex.length

theorem startList_stacks {x : Extractor} (agree : x.StacksAgree) (tag : String) :
    (x.startList tag).StacksAgree := by
  unfold StacksAgree at agree ⊢
  unfold startList
  split <;> simp [newline, emit, agree]

theorem startItem_stacks {x : Extractor} (agree : x.StacksAgree) : x.startItem.StacksAgree := by
  unfold StacksAgree at agree ⊢
  simp only [startItem]
  split
  · rename_i numbered
    cases counters : x.itemIndex with
    | nil =>
        have none : x.listStack = [] := by simpa [counters] using agree
        simp [newline, emit, none] at numbered
    | cons index rest => simpa [newline, emit, counters] using agree
  · exact agree

theorem endList_stacks {x : Extractor} (agree : x.StacksAgree) : x.endList.StacksAgree := by
  unfold StacksAgree at agree ⊢
  simp only [endList]
  split <;> simp [newline, emit, agree]

theorem handle_stacks {x : Extractor} (agree : x.StacksAgree) (event : Event) :
    (x.handle event).StacksAgree := by
  cases event with
  | starttag tag =>
      change (x.handleStarttag tag).StacksAgree
      unfold handleStarttag
      split
      · exact agree
      split
      · exact agree
      split
      · exact agree
      split
      · exact startList_stacks agree tag
      split
      · exact startItem_stacks agree
      split
      · exact agree
      split <;> exact agree
  | endtag tag =>
      change (x.handleEndtag tag).StacksAgree
      unfold handleEndtag
      split
      · exact agree
      split
      · exact agree
      split
      · exact endList_stacks agree
      split
      · exact agree
      split <;> exact agree
  | data text =>
      change (x.handleData text).StacksAgree
      simp only [handleData]
      split
      · exact agree
      split
      · exact agree
      split <;> exact agree

theorem feed_stacks {x : Extractor} (agree : x.StacksAgree) (events : List Event) :
    (x.feed events).StacksAgree := by
  induction events generalizing x with
  | nil => exact agree
  | cons event rest ih => exact ih (handle_stacks agree event)

end Extractor

theorem htmlToText_erased {events : List Event} (balanced : Balanced events) :
    htmlToText events = htmlToText (eraseDropped 0 events) := by
  unfold htmlToText
  rw [Extractor.feed_erased balanced]

/-- What is dropped does not influence the text, and neither does what else could stand there. -/
theorem htmlToText_ignores_dropped {events : List Event} (balanced : Balanced events) :
    htmlToText events = htmlToText (eraseDropped 0 events) ∧
      ∀ events', SameOutside events events' → htmlToText events = htmlToText events' := by
  constructor
  · exact htmlToText_erased balanced
  · intro events' same
    rw [htmlToText_erased same.balanced.1, htmlToText_erased same.balanced.2, same.erased]

/-- A menu inside an open list item, with a script of its own. -/
theorem htmlToText_ignores_dropped_menu :
    htmlToText [.starttag "li", .starttag "nav", .starttag "ol", .starttag "script", .data ['x'],
        .endtag "script", .endtag "nav", .data ['a']] = ['-', ' ', 'a'] := by
  have script : Balanced [.starttag "script", .data ['x'], .endtag "script"] :=
    .element "script" [.data ['x']] [] rfl (.other _ _ rfl .nil) .nil
  have menu : Balanced [.starttag "li", .starttag "nav", .starttag "ol", .starttag "script", .data ['x'],
      .endtag "script", .endtag "nav", .data ['a']] :=
    .other _ _ rfl (.element "nav" [.starttag "ol", .starttag "script", .data ['x'], .endtag "script"]
      [.data ['a']] rfl (.other _ _ rfl script) (.other _ _ rfl .nil))
  rw [(htmlToText_ignores_dropped menu).1]
  decide +kernel

end Nipoto.Clean
