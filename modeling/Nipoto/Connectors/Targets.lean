import Nipoto.Connectors.Http
import Nipoto.Text.UriPath

/-! # Conversation ids in request targets

The paths of the calls about a conversation are f-strings with the id as it
comes. Read as a path, such a target names the conversation just if the id is
one segment that stands for itself.
-/

namespace Nipoto.Connectors

open Text Text.UriPath
open HttpMainBackend (convIdOf)

/-- What a call asks of its conversation, as a segment of the path. -/
def actionOf : HttpCall → Option Str
  | .getMessages _ _ _ => some "messages".toList
  | .postAssistantMessage _ _ _ _ => some "messages".toList
  | .handoff _ _ => some "handoff".toList
  | .getConversation _ _ => none
  | .listKbItems _ => none
  | .getRecentOrders _ _ => none

/-- The segments that a call about a conversation means. -/
def meant (call : HttpCall) (convId : Str) : List Str := "conversations".toList :: convId :: (actionOf call).toList

variable (backend : HttpMainBackend)

/-- The target of a call. -/
def target (call : HttpCall) : Str := (backend.requestOf call).path.toList

/-- The target, read as a path, is that of the conversation and of nothing else. -/
structure Confined (call : HttpCall) (convId : String) : Prop where
  path : segments (target backend call) = (meant call convId.toList).map utf8
  query : query (target backend call) = none

/-- Two calls with the same method and the same target ask the same of the same conversation. -/
def Separate (call call' : HttpCall) (convId convId' : String) : Prop :=
  (backend.requestOf call).method = (backend.requestOf call').method → target backend call = target backend call' →
    actionOf call = actionOf call' ∧ convId = convId'

theorem target_eq {call : HttpCall} {convId : String} (addressed : convIdOf call = some convId) :
    target backend call = (meant call convId.toList).flatMap ('/' :: ·) := by
  cases call with
  | getConversation | getMessages | postAssistantMessage | handoff =>
      cases addressed
      simp [target, HttpMainBackend.requestOf, actionOf, meant]
  | listKbItems | getRecentOrders => cases addressed

theorem oneSegment_words : ∀ w ∈ ["conversations".toList, "messages".toList, "handoff".toList], OneSegment w := by
  intro w member
  simp only [List.mem_cons, List.not_mem_nil, or_false] at member
  have word : '/' ∉ w ∧ '?' ∉ w ∧ '#' ∉ w ∧ '%' ∉ w ∧ w ≠ ['.'] ∧ w ≠ ['.', '.'] := by
    rcases member with rfl | rfl | rfl <;> decide
  obtain ⟨slash, query, fragment, percent, dot, dots⟩ := word
  exact ⟨slash, query, fragment, not_hasEscape percent, dot, dots⟩

theorem action_word {call : HttpCall} {w : Str} (member : w ∈ (actionOf call).toList) :
    w ∈ ["messages".toList, "handoff".toList] := by
  cases call <;> simp_all [actionOf]

theorem meant_oneSegment (call : HttpCall) {convId : Str} (one : OneSegment convId) :
    ∀ w ∈ meant call convId, OneSegment w := by
  intro w member
  rcases List.mem_cons.mp member with rfl | member
  · exact oneSegment_words _ List.mem_cons_self
  rcases List.mem_cons.mp member with rfl | member
  · exact one
  · exact oneSegment_words w (List.mem_cons_of_mem _ (action_word member))

/-- What a target is read as, whatever the id. -/
theorem segments_meant (call : HttpCall) (convId : Str) :
    ∃ rest : List Str, (∀ w ∈ rest, w ∈ (actionOf call).toList) ∧
      segments ((meant call convId).flatMap ('/' :: ·)) =
        (removeDots [] ("conversations".toList :: ((pathPart convId).splitOn '/' ++ rest))).map decode := by
  have words : ∀ w ∈ (actionOf call).toList, OneSegment w :=
    fun w member => oneSegment_words w (List.mem_cons_of_mem _ (action_word member))
  have inside := fun w member => (words w member).inPath
  have front : ∀ c ∈ '/' :: "conversations".toList ++ ['/'], inPath c = true := by decide
  have split : (meant call convId).flatMap ('/' :: ·) =
      '/' :: "conversations".toList ++ ['/'] ++ (convId ++ (actionOf call).toList.flatMap ('/' :: ·)) := by
    simp [meant]
  obtain ⟨rest, known, part⟩ : ∃ rest : List Str, (∀ w ∈ rest, w ∈ (actionOf call).toList) ∧
      (convId ++ (actionOf call).toList.flatMap ('/' :: ·)).takeWhile inPath =
        pathPart convId ++ rest.flatMap ('/' :: ·) := by
    rw [List.takeWhile_append]
    split
    · rename_i whole
      have all : pathPart convId = convId := (List.takeWhile_prefix inPath).eq_of_length whole
      exact ⟨_, fun w member => member, by rw [all, List.takeWhile_eq_self_iff.mpr (inPath_segments inside)]⟩
    · exact ⟨[], by simp, by simp [pathPart]⟩
  refine ⟨rest, known, ?_⟩
  have single : ∀ w ∈ rest, '/' ∉ w := fun w member => (words w (known w member)).slash
  have alone : "conversations".toList.splitOn '/' = ["conversations".toList] := by decide
  have pieces : ('/' :: "conversations".toList ++ ['/'] ++ (pathPart convId ++ rest.flatMap ('/' :: ·))).splitOn '/' =
      [] :: "conversations".toList :: ((pathPart convId).splitOn '/' ++ rest) := by
    rw [List.append_assoc, List.cons_append, ← List.nil_append ('/' :: _), List.splitOn_append_cons_self,
      List.singleton_append, List.splitOn_append_cons_self, splitOn_append_segments _ single, alone]
    rfl
  rw [split, segments, pathPart, List.takeWhile_append_of_pos front, part, pieces, List.tail_cons]

/-- A segment of a target is one of its fixed words or a piece of the id. -/
theorem mem_segments_meant {call : HttpCall} {convId : Str} {bytes : List UInt8}
    (member : bytes ∈ segments ((meant call convId).flatMap ('/' :: ·))) :
    ∃ s, decode s = bytes ∧ (s ∈ [[], "conversations".toList, "messages".toList, "handoff".toList] ∨
      s ∈ (pathPart convId).splitOn '/') := by
  obtain ⟨rest, known, raw⟩ := segments_meant call convId
  rw [raw] at member
  obtain ⟨s, inPieces, rfl⟩ := List.mem_map.mp member
  refine ⟨s, rfl, ?_⟩
  rcases mem_removeDots inPieces with rfl | none | inPieces
  · exact .inl List.mem_cons_self
  · exact absurd none List.not_mem_nil
  · rcases List.mem_cons.mp inPieces with rfl | inPieces
    · exact .inl (List.mem_cons_of_mem _ List.mem_cons_self)
    · rcases List.mem_append.mp inPieces with piece | later
      · exact .inr piece
      · exact .inl (List.mem_cons_of_mem _ (List.mem_cons_of_mem _ (action_word (known s later))))

/-- The fixed words have no escape and none of the bytes of a delimiter. -/
theorem fixed_bytes : ∀ w ∈ [[], "conversations".toList, "messages".toList, "handoff".toList],
    ∀ x ∈ ['/', '?', '#'], decode w = utf8 w ∧ ∀ b ∈ String.utf8EncodeChar x, b ∉ utf8 w := by decide +kernel

theorem piece_no_delimiter {x : Char} (special : x ∈ ['/', '?', '#']) {convId s : Str}
    (piece : s ∈ (pathPart convId).splitOn '/') : x ∉ s := by
  obtain ⟨part, slash⟩ := mem_splitOn piece
  intro inPiece
  have kept := inPath_iff.mp (List.mem_takeWhile_imp (part.subset inPiece))
  simp only [List.mem_cons, List.not_mem_nil, or_false] at special
  rcases special with rfl | rfl | rfl
  · exact slash inPiece
  · exact kept.1 rfl
  · exact kept.2 rfl

/-- A confined id has no character that ends a segment. -/
theorem no_delimiter {call : HttpCall} {convId : Str}
    (path : segments ((meant call convId).flatMap ('/' :: ·)) = (meant call convId).map utf8) :
    '/' ∉ convId ∧ '?' ∉ convId ∧ '#' ∉ convId := by
  have second : utf8 convId ∈ (meant call convId).map utf8 := by simp [meant]
  rw [← path] at second
  obtain ⟨s, same, word⟩ := mem_segments_meant second
  have absent : ∀ x ∈ ['/', '?', '#'], x ∉ convId := by
    intro x special inside
    rcases word with fixed | piece
    · obtain ⟨plain, none⟩ := fixed_bytes s fixed x special
      obtain ⟨b, first⟩ := List.exists_mem_of_ne_nil _ (@String.utf8EncodeChar_ne_nil x)
      apply none b first
      rw [← plain, same]
      exact List.mem_flatMap.mpr ⟨x, inside, first⟩
    · have size := (length_decode s).1
      rw [same] at size
      have whole : s <:+: convId := (mem_splitOn piece).1.trans (List.takeWhile_prefix inPath).isInfix
      exact absurd (infix_length_utf8 whole inside (piece_no_delimiter special piece)) (by omega)
  exact ⟨absent _ (by simp), absent _ (by simp), absent _ (by simp)⟩

/-- A dot segment takes the id out of the path. -/
theorem dot_removed : ∀ dots ∈ [['.'], ['.', '.']], ∀ call : HttpCall,
    (removeDots [] (meant call dots)).map decode ≠ (meant call dots).map utf8 := by
  have each : ∀ dots ∈ [['.'], ['.', '.']], ∀ action ∈ [none, some "messages".toList, some "handoff".toList],
      (removeDots [] ("conversations".toList :: dots :: action.toList)).map decode ≠
        ("conversations".toList :: dots :: action.toList).map utf8 := by decide
  intro dots known call
  have action : actionOf call ∈ [none, some "messages".toList, some "handoff".toList] := by
    cases call <;> simp [actionOf]
  exact each dots known (actionOf call) action

theorem confined_path_iff (call : HttpCall) (convId : Str) :
    segments ((meant call convId).flatMap ('/' :: ·)) = (meant call convId).map utf8 ↔ OneSegment convId := by
  constructor
  · intro path
    obtain ⟨slash, query, fragment⟩ := no_delimiter path
    have undelimited : ∀ w ∈ meant call convId, (∀ c ∈ w, inPath c = true) ∧ '/' ∉ w := by
      intro w member
      rcases List.mem_cons.mp member with rfl | member
      · exact ⟨(oneSegment_words _ List.mem_cons_self).inPath, (oneSegment_words _ List.mem_cons_self).slash⟩
      rcases List.mem_cons.mp member with rfl | member
      · exact ⟨fun c inside => inPath_iff.mpr ⟨fun same => query (same ▸ inside), fun same => fragment (same ▸ inside)⟩,
          slash⟩
      · have one := oneSegment_words w (List.mem_cons_of_mem _ (action_word member))
        exact ⟨one.inPath, one.slash⟩
    rw [segments_eq (fun w member => (undelimited w member).1) fun w member => (undelimited w member).2] at path
    have notDots : convId ≠ ['.'] ∧ convId ≠ ['.', '.'] := by
      constructor
      · rintro rfl
        exact dot_removed ['.'] (by simp) call path
      · rintro rfl
        exact dot_removed ['.', '.'] (by simp) call path
    have plain : ∀ w ∈ meant call convId, w ≠ ['.'] ∧ w ≠ ['.', '.'] := by
      intro w member
      rcases List.mem_cons.mp member with rfl | member
      · exact ⟨by decide, by decide⟩
      rcases List.mem_cons.mp member with rfl | member
      · exact notDots
      · have one := oneSegment_words w (List.mem_cons_of_mem _ (action_word member))
        exact ⟨one.dot, one.dots⟩
    rw [removeDots_plain plain, List.reverse_nil, List.nil_append, List.map_inj_left] at path
    have decoded := path convId (List.mem_cons_of_mem _ List.mem_cons_self)
    exact ⟨slash, query, fragment, decode_eq_utf8.mp decoded, notDots.1, notDots.2⟩
  · exact fun one => segments_plain (meant_oneSegment call one)

/-- The targets of two calls about conversations stay within their own paths and apart from
    each other just if both ids stand for themselves as one segment. -/
theorem confined_iff {call call' : HttpCall} {convId convId' : String} (addressed : convIdOf call = some convId)
    (addressed' : convIdOf call' = some convId') :
    (Confined backend call convId ∧ Confined backend call' convId' ∧ Separate backend call call' convId convId') ↔
      OneSegment convId.toList ∧ OneSegment convId'.toList := by
  have each : ∀ {call : HttpCall} {convId : String}, convIdOf call = some convId →
      (Confined backend call convId ↔ OneSegment convId.toList) := by
    intro call convId addressed
    have same := target_eq backend addressed
    constructor
    · intro confined
      rw [← confined_path_iff call, ← same]
      exact confined.path
    · intro one
      exact ⟨by rw [same, confined_path_iff]; exact one, by rw [same]; exact query_plain (meant_oneSegment call one)⟩
  rw [each addressed, each addressed']
  refine ⟨fun all => ⟨all.1, all.2.1⟩, fun ⟨one, one'⟩ => ⟨one, one', ?_⟩⟩
  intro _ same
  have segmentsOf : ∀ {call : HttpCall} {convId : Str}, OneSegment convId →
      ((meant call convId).flatMap ('/' :: ·)).splitOn '/' = [] :: meant call convId := by
    intro call convId one
    have split := splitOn_append_segments [] fun w member => (meant_oneSegment call one w member).slash
    rwa [List.nil_append, List.splitOn_nil, List.singleton_append] at split
  rw [target_eq backend addressed, target_eq backend addressed'] at same
  have both : meant call convId.toList = meant call' convId'.toList := by
    have pieces := congrArg (List.splitOn '/') same
    rw [segmentsOf one, segmentsOf one'] at pieces
    exact (List.cons.inj pieces).2
  obtain ⟨id, action⟩ := List.cons.inj (List.cons.inj both).2
  have first := congrArg List.head? action
  exact ⟨by simpa using first, String.toList_inj.mp id⟩

theorem oneSegment_c1001 : OneSegment "c_1001".toList :=
  ⟨by decide, by decide, by decide, not_hasEscape (by decide), by decide, by decide⟩

def guest : Actor := { userId := "g1", role := .guest }

def plainBackend : HttpMainBackend := { requestId := none, fromisoformat := fun _ => none, isoformat := fun _ => "" }

theorem confined_c1001 :
    Confined plainBackend (.getMessages "c_1001" guest 20) "c_1001" ∧
      Confined plainBackend (.handoff "c_1001" "user_request") "c_1001" ∧
      Separate plainBackend (.getMessages "c_1001" guest 20) (.handoff "c_1001" "user_request") "c_1001" "c_1001" :=
  (confined_iff plainBackend rfl rfl).mpr ⟨oneSegment_c1001, oneSegment_c1001⟩

/-- Reading a conversation asks for the messages of another one. -/
theorem id_reaches_messages :
    ¬ ∀ (backend : HttpMainBackend) (call call' : HttpCall) (convId convId' : String),
      convIdOf call = some convId → convIdOf call' = some convId' →
        Confined backend call convId ∧ Confined backend call' convId' ∧ Separate backend call call' convId convId' := by
  intro all
  have both := all plainBackend (.getConversation "c_1001/messages" guest) (.getMessages "c_1001" guest 20)
    "c_1001/messages" "c_1001" rfl rfl
  have same := both.2.2 rfl (by decide)
  exact absurd same.2 (by decide)

end Nipoto.Connectors
