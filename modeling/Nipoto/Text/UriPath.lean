import Nipoto.Text.Str

/-! # Reading the path of a request target

A target is cut at the query and the fragment, its path at the slashes; the dot
segments are removed and what is left is percent-decoded to bytes. A character
that is not escaped stands for its UTF-8 bytes.
-/

namespace Nipoto.Text.UriPath

def hexValue (c : Char) : Option Nat :=
  if '0' ≤ c ∧ c ≤ '9' then some (c.toNat - '0'.toNat)
  else if 'A' ≤ c ∧ c ≤ 'F' then some (c.toNat - 'A'.toNat + 10)
  else if 'a' ≤ c ∧ c ≤ 'f' then some (c.toNat - 'a'.toNat + 10)
  else none

def utf8 (s : Str) : List UInt8 := s.flatMap String.utf8EncodeChar

/-- `%` and two hexadecimal digits stand for one byte. -/
def decode : Str → List UInt8
  | '%' :: a :: b :: rest =>
      match hexValue a, hexValue b with
      | some high, some low => UInt8.ofNat (16 * high + low) :: decode rest
      | _, _ => String.utf8EncodeChar '%' ++ decode (a :: b :: rest)
  | c :: rest => String.utf8EncodeChar c ++ decode rest
  | [] => []

def inPath (c : Char) : Bool := c != '?' && c != '#'

/-- What comes before the query and the fragment. -/
def pathPart (target : Str) : Str := target.takeWhile inPath

def query (target : Str) : Option Str :=
  match target.dropWhile inPath with
  | '?' :: rest => some (rest.takeWhile (· != '#'))
  | _ => none

/-- `.` is skipped and `..` takes the segment before it away; at the end both leave an
    empty segment. `out` has the nearest segment first. -/
def removeDots (out : List Str) : List Str → List Str
  | [] => out.reverse
  | [s] =>
      if s = ['.'] then ([] :: out).reverse
      else if s = ['.', '.'] then ([] :: out.tail).reverse
      else (s :: out).reverse
  | s :: next :: rest =>
      if s = ['.'] then removeDots out (next :: rest)
      else if s = ['.', '.'] then removeDots out.tail (next :: rest)
      else removeDots (s :: out) (next :: rest)

/-- The segments of an absolute path. -/
def segments (target : Str) : List (List UInt8) :=
  (removeDots [] ((pathPart target).splitOn '/').tail).map decode

def HasEscape (s : Str) : Prop :=
  ∃ a b, (hexValue a).isSome = true ∧ (hexValue b).isSome = true ∧ ['%', a, b] <:+: s

/-- A text that stands for itself as one segment. -/
structure OneSegment (s : Str) : Prop where
  slash : '/' ∉ s
  query : '?' ∉ s
  fragment : '#' ∉ s
  escape : ¬ HasEscape s
  dot : s ≠ ['.']
  dots : s ≠ ['.', '.']

theorem utf8_cons (c : Char) (s : Str) : utf8 (c :: s) = String.utf8EncodeChar c ++ utf8 s := rfl

theorem utf8_append (a b : Str) : utf8 (a ++ b) = utf8 a ++ utf8 b := List.flatMap_append

theorem length_encoded (c : Char) : 1 ≤ (String.utf8EncodeChar c).length :=
  List.length_pos_iff.mpr String.utf8EncodeChar_ne_nil

/-- Every character has its bytes. -/
theorem length_utf8 (s : Str) : s.length ≤ (utf8 s).length := by
  induction s with
  | nil => exact le_rfl
  | cons c s ih =>
      have first := length_encoded c
      rw [utf8_cons, List.length_append, List.length_cons]
      omega

theorem infix_length_utf8 {p s : Str} (inside : p <:+: s) {x : Char} (member : x ∈ s) (outside : x ∉ p) :
    (utf8 p).length < (utf8 s).length := by
  obtain ⟨a, b, rfl⟩ := inside
  have some : 0 < (a ++ b).length := by
    apply List.length_pos_of_mem (a := x)
    simpa [outside] using member
  have more := length_utf8 (a ++ b)
  rw [utf8_append] at more
  rw [utf8_append, utf8_append]
  simp only [List.length_append] at more some ⊢
  omega

theorem hasEscape_cons {c : Char} {s : Str} :
    HasEscape (c :: s) ↔ (∃ a b rest, c = '%' ∧ s = a :: b :: rest ∧ (hexValue a).isSome = true ∧
      (hexValue b).isSome = true) ∨ HasEscape s := by
  simp only [HasEscape, List.infix_cons_iff]
  constructor
  · rintro ⟨a, b, high, low, ⟨rest, here⟩ | later⟩
    · obtain ⟨rfl, rfl⟩ := List.cons.inj here
      exact .inl ⟨a, b, rest, rfl, rfl, high, low⟩
    · exact .inr ⟨a, b, high, low, later⟩
  · rintro (⟨a, b, rest, rfl, rfl, high, low⟩ | ⟨a, b, high, low, later⟩)
    · exact ⟨a, b, high, low, .inl ⟨rest, rfl⟩⟩
    · exact ⟨a, b, high, low, .inr later⟩

theorem not_hasEscape_nil : ¬ HasEscape [] := by
  rintro ⟨a, b, -, -, inside⟩
  simp at inside

/-- Decoding makes nothing longer, and an escape shorter. -/
theorem length_decode (s : Str) :
    (decode s).length ≤ (utf8 s).length ∧ (HasEscape s → (decode s).length < (utf8 s).length) := by
  fun_induction decode s with
  | case1 a b rest high low _ _ ih =>
      have first := length_encoded '%'
      have second := length_encoded a
      simp only [utf8_cons, List.length_cons, List.length_append]
      omega
  | case2 a b rest neither ih =>
      rw [utf8_cons, List.length_append, List.length_append]
      refine ⟨by omega, fun escape => ?_⟩
      rcases hasEscape_cons.mp escape with ⟨_, _, _, -, ⟨⟩, high, low⟩ | later
      · obtain ⟨h, isHigh⟩ := Option.isSome_iff_exists.mp high
        obtain ⟨l, isLow⟩ := Option.isSome_iff_exists.mp low
        exact absurd isLow (neither h l isHigh)
      · have shorter := ih.2 later
        omega
  | case3 c rest other ih =>
      rw [utf8_cons, List.length_append, List.length_append]
      refine ⟨by omega, fun escape => ?_⟩
      rcases hasEscape_cons.mp escape with ⟨a, b, more, percent, split, -⟩ | later
      · exact absurd split (other a b more percent)
      · have shorter := ih.2 later
        omega
  | case4 => exact ⟨le_rfl, fun escape => absurd escape not_hasEscape_nil⟩

theorem decode_plain {s : Str} (plain : ¬ HasEscape s) : decode s = utf8 s := by
  fun_induction decode s with
  | case1 a b rest high low isLow isHigh =>
      have digits : (hexValue a).isSome = true ∧ (hexValue b).isSome = true := by rw [isHigh, isLow]; exact ⟨rfl, rfl⟩
      exact absurd (hasEscape_cons.mpr (.inl ⟨a, b, rest, rfl, rfl, digits⟩)) plain
  | case2 a b rest _ ih => rw [utf8_cons, ih fun later => plain (hasEscape_cons.mpr (.inr later))]
  | case3 c rest _ ih => rw [utf8_cons, ih fun later => plain (hasEscape_cons.mpr (.inr later))]
  | case4 => rfl

theorem decode_eq_utf8 {s : Str} : decode s = utf8 s ↔ ¬ HasEscape s := by
  refine ⟨fun same escape => ?_, decode_plain⟩
  have shorter := (length_decode s).2 escape
  rw [same] at shorter
  exact absurd shorter (Nat.lt_irrefl _)

theorem not_hasEscape {s : Str} (none : '%' ∉ s) : ¬ HasEscape s := by
  rintro ⟨a, b, -, -, inside⟩
  exact none (inside.subset List.mem_cons_self)

theorem mem_removeDots {out segs : List Str} {s : Str} (member : s ∈ removeDots out segs) :
    s = [] ∨ s ∈ out ∨ s ∈ segs := by
  fun_induction removeDots out segs with
  | case1 out => exact .inr (.inl (List.mem_reverse.mp member))
  | case2 out | case4 out t =>
      rcases List.mem_cons.mp (List.mem_reverse.mp member) with rfl | inOut
      · simp
      · exact .inr (.inl inOut)
  | case3 out =>
      rcases List.mem_cons.mp (List.mem_reverse.mp member) with rfl | inOut
      · exact .inl rfl
      · exact .inr (.inl (List.mem_of_mem_tail inOut))
  | case5 out next rest ih =>
      rcases ih member with empty | inOut | later
      · exact .inl empty
      · exact .inr (.inl inOut)
      · exact .inr (.inr (List.mem_cons_of_mem _ later))
  | case6 out next rest _ ih =>
      rcases ih member with empty | inOut | later
      · exact .inl empty
      · exact .inr (.inl (List.mem_of_mem_tail inOut))
      · exact .inr (.inr (List.mem_cons_of_mem _ later))
  | case7 out s' next rest _ _ ih =>
      rcases ih member with empty | inOut | later
      · exact .inl empty
      · rcases List.mem_cons.mp inOut with rfl | before
        · exact .inr (.inr List.mem_cons_self)
        · exact .inr (.inl before)
      · exact .inr (.inr (List.mem_cons_of_mem _ later))

/-- Without dot segments nothing is removed. -/
theorem removeDots_plain {segs : List Str} (plain : ∀ s ∈ segs, s ≠ ['.'] ∧ s ≠ ['.', '.']) (out : List Str) :
    removeDots out segs = out.reverse ++ segs := by
  fun_induction removeDots out segs with
  | case1 out => simp
  | case2 out => exact absurd rfl (plain _ List.mem_cons_self).1
  | case3 out => exact absurd rfl (plain _ List.mem_cons_self).2
  | case4 out s => simp
  | case5 out next rest => exact absurd rfl (plain _ List.mem_cons_self).1
  | case6 out next rest => exact absurd rfl (plain _ List.mem_cons_self).2
  | case7 out s next rest _ _ ih =>
      rw [ih fun t member => plain t (List.mem_cons_of_mem s member), List.reverse_cons, List.append_assoc,
        List.singleton_append]

theorem mem_splitOn {x : Char} {p s : Str} (member : p ∈ s.splitOn x) : p <:+: s ∧ x ∉ p := by
  induction s using split_induction (p := (· == x)) generalizing p with
  | whole s outside =>
      have alone : s.splitOn x = [s] := List.splitOn_eq_singleton fun found => by simpa using outside x found
      rw [alone, List.mem_singleton] at member
      subst member
      exact ⟨List.infix_rfl, fun found => by simpa using outside x found⟩
  | parted a c b outside found first later =>
      obtain rfl : c = x := beq_iff_eq.mp found
      rw [List.splitOn_append_cons_self, List.mem_append] at member
      cases member with
      | inl inFirst =>
          obtain ⟨inside, none⟩ := first inFirst
          exact ⟨inside.trans (List.prefix_append a _).isInfix, none⟩
      | inr inRest =>
          obtain ⟨inside, none⟩ := later b le_rfl inRest
          exact ⟨inside.trans ((List.suffix_cons c b).trans (List.suffix_append a _)).isInfix, none⟩

theorem splitOn_append_segments (s : Str) {ws : List Str} (single : ∀ w ∈ ws, '/' ∉ w) :
    (s ++ ws.flatMap ('/' :: ·)).splitOn '/' = s.splitOn '/' ++ ws := by
  induction ws generalizing s with
  | nil => simp
  | cons w ws ih =>
      have alone : w.splitOn '/' = [w] := List.splitOn_eq_singleton (single w List.mem_cons_self)
      rw [List.flatMap_cons, List.cons_append, List.splitOn_append_cons_self,
        ih w fun v member => single v (List.mem_cons_of_mem w member), alone, List.singleton_append]

theorem inPath_iff {c : Char} : inPath c = true ↔ c ≠ '?' ∧ c ≠ '#' := by simp [inPath]

theorem OneSegment.inPath {s : Str} (one : OneSegment s) : ∀ c ∈ s, inPath c = true := by
  intro c member
  rw [inPath_iff]
  exact ⟨fun same => one.query (same ▸ member), fun same => one.fragment (same ▸ member)⟩

section

variable {ws : List Str}

theorem inPath_segments (inside : ∀ w ∈ ws, ∀ c ∈ w, inPath c = true) : ∀ c ∈ ws.flatMap ('/' :: ·), inPath c = true := by
  intro c member
  obtain ⟨w, known, here⟩ := List.mem_flatMap.mp member
  rcases List.mem_cons.mp here with rfl | inWord
  · rfl
  · exact inside w known c inWord

/-- The segments of a path without a query. -/
theorem segments_eq (inside : ∀ w ∈ ws, ∀ c ∈ w, inPath c = true) (single : ∀ w ∈ ws, '/' ∉ w) :
    segments (ws.flatMap ('/' :: ·)) = (removeDots [] ws).map decode := by
  have whole : pathPart (ws.flatMap ('/' :: ·)) = ws.flatMap ('/' :: ·) :=
    List.takeWhile_eq_self_iff.mpr (inPath_segments inside)
  have split := splitOn_append_segments [] single
  rw [List.nil_append, List.splitOn_nil, List.singleton_append] at split
  rw [segments, whole, split, List.tail_cons]

/-- Segments that stand for themselves are read as they are. -/
theorem segments_plain (ones : ∀ w ∈ ws, OneSegment w) : segments (ws.flatMap ('/' :: ·)) = ws.map utf8 := by
  rw [segments_eq (fun w member => (ones w member).inPath) fun w member => (ones w member).slash,
    removeDots_plain fun w member => ⟨(ones w member).dot, (ones w member).dots⟩, List.reverse_nil, List.nil_append]
  exact List.map_congr_left fun w member => decode_plain (ones w member).escape

theorem query_plain (ones : ∀ w ∈ ws, OneSegment w) : query (ws.flatMap ('/' :: ·)) = none := by
  have empty : (ws.flatMap ('/' :: ·)).dropWhile inPath = [] :=
    List.dropWhile_eq_nil_iff.mpr (inPath_segments fun w member => (ones w member).inPath)
  rw [query, empty]

end

end Nipoto.Text.UriPath
