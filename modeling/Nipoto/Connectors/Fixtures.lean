import Nipoto.Connectors.Http
import Nipoto.General.Dict
import Nipoto.General.Fallible
import Nipoto.General.Lexicographic
import Nipoto.General.Machine

/-! # The fixtures of the in-memory backend

Loading of app/connectors/fake.py. An entry that cannot be read ends its file, and
what was loaded before it stays: also its own conversation, if only its messages
cannot be read.
-/

namespace Nipoto.Connectors.Fixtures

open Fallible

/-- A value as a key of a dictionary. -/
inductive Key where
  | none
  /-- Booleans are numbers. -/
  | number (value : Rat)
  | infinite (negative : Bool)
  | nan
  | text (s : String)
  deriving DecidableEq

/-- Lists and dictionaries are not hashable. -/
def keyOf : Json → Except Error Key
  | .null => .ok .none
  | .bool b => .ok (.number (if b then 1 else 0))
  | .int n => .ok (.number n)
  | .float (.finite value) => .ok (.number value)
  | .float (.infinite negative) => .ok (.infinite negative)
  | .float .nan => .ok .nan
  | .str s => .ok (.text s)
  | .arr _ => .error .typeError
  | .obj _ => .error .typeError

/-- A file of the directory, and what `json.loads` makes of its text. -/
structure File where
  name : String
  data : Except Error Json

/-- `_conversations` and `_messages`. -/
structure Tables where
  conversations : List (Key × Conversation Json) := []
  messages : List (Key × List (Message Json)) := []

/-- `conversation_ids`. -/
def Tables.conversationIds (s : Tables) : List Key := s.conversations.map Prod.fst

/-- `data if isinstance(data, list) else [data]`. -/
def entriesOf : Json → List Json
  | .arr items => items
  | data => [data]

variable (fromisoformat : String → Option DateTime)

/-- `message_from_json(data, conv_id)`; the id may be any value here. -/
def messageOf (convId data : Json) : Except Error (Message Json) := do
  let message ← messageFromJson fromisoformat "" data
  return { message with conversationId := optional (← get data "conversationId" convId) }

/-- The conversation of an entry under its key. -/
def conversationOf (entry : Json) : Except Error (Key × Conversation Json) := do
  let conv ← conversationFromJson fromisoformat (← subscript entry "conversation")
  return (← keyOf conv.id, conv)

def messagesOf (convId entry : Json) : Except Error (List (Message Json)) := do
  (← iterate (← get entry "messages" (.arr []))).mapM (messageOf fromisoformat convId)

def loadEntry (entry : Json) (s : Tables) : Except Error Unit × Tables :=
  match conversationOf fromisoformat entry with
  | .error e => (.error e, s)
  | .ok (key, conv) =>
      let s := { s with conversations := Dict.put key conv s.conversations }
      match messagesOf fromisoformat conv.id entry with
      | .error e => (.error e, s)
      | .ok found => (.ok (), { s with messages := Dict.put key found s.messages })

def loadFile (data : Except Error Json) (s : Tables) : Except Error Unit × Tables :=
  match data with
  | .error e => (.error e, s)
  | .ok data => untilError (loadEntry fromisoformat) (entriesOf data) s

/-- Paths of one directory are compared by their names. -/
def atMost (a b : File) : Bool := Lexicographic.atMost Char.toNat a.name.toList b.name.toList

/-- `sorted(self.directory.glob("*.json"))`, of the files as the system lists them. -/
def sorted (directory : List File) : List File := directory.mergeSort atMost

/-- `_load`, `none` for no directory. The backend is not built if it raises. -/
def load (directory : Option (List File)) : Except Error Unit × Tables :=
  match directory with
  | none => (.ok (), {})
  | some directory => untilError (fun file => loadFile fromisoformat file.data) (sorted directory) {}

def addConversation (conv : Conversation Json) (messages : Option (List (Message Json))) (s : Tables) :
    Except Error Unit × Tables :=
  match keyOf conv.id with
  | .error e => (.error e, s)
  | .ok key =>
      (.ok (), ⟨Dict.put key conv s.conversations, Dict.put key (messages.getD []) s.messages⟩)

/-- A call on a backend that was built. -/
inductive Change where
  | file (data : Except Error Json)
  | conversation (conv : Conversation Json) (messages : Option (List (Message Json)))

def change (s : Tables) : Change → Except Error Unit × Tables
  | .file data => loadFile fromisoformat data s
  | .conversation conv messages => addConversation conv messages s

/-- A conversation under its key, and its messages. -/
abbrev Reading := Key × Conversation Json × List (Message Json)

/-- What an entry says. -/
def read (entry : Json) : Except Error Reading := do
  let (key, conv) ← conversationOf fromisoformat entry
  return (key, conv, ← messagesOf fromisoformat conv.id entry)

def Tables.add (s : Tables) (reading : Reading) : Tables where
  conversations := Dict.put reading.1 reading.2.1 s.conversations
  messages := Dict.put reading.1 reading.2.2 s.messages

def File.entries (file : File) : List Json :=
  match file.data with
  | .ok data => entriesOf data
  | .error _ => []

/-- The last of the readings for a key counts, and keys stand in the order of their first. -/
structure Holds (readings : List Reading) (s : Tables) : Prop where
  conversations : ∀ key, s.conversations.lookup key = (readings.reverse.lookup key).map Prod.fst
  messages : ∀ key, s.messages.lookup key = (readings.reverse.lookup key).map Prod.snd
  ids : s.conversationIds = Firsts.firsts id (readings.map Prod.fst)

/-- The result of loading a directory, by what its files say in the order of their names. -/
structure Loaded (directory : List File) (result : Except Error Unit × Tables) : Prop where
  succeeds : result.1 = .ok () ↔
    ∀ file ∈ directory, Succeeds file.data ∧ ∀ entry ∈ file.entries, Succeeds (read fromisoformat entry)
  holds : result.1 = .ok () → ∃ readings,
    ((sorted directory).flatMap File.entries).mapM (read fromisoformat) = .ok readings ∧ Holds readings result.2

variable {fromisoformat} {directory other : List File} {s : Tables}

theorem loadEntry_read {entry : Json} {reading : Reading} (ok : read fromisoformat entry = .ok reading) :
    loadEntry fromisoformat entry s = (.ok (), s.add reading) := by
  obtain ⟨⟨key, conv⟩, first, ok⟩ := bind_eq_ok.mp ok
  obtain ⟨found, second, same⟩ := bind_eq_ok.mp ok
  obtain rfl := Except.ok.inj same
  simp only [loadEntry, first, second]
  rfl

theorem loadEntry_ok_iff (entry : Json) (s : Tables) :
    (loadEntry fromisoformat entry s).1 = .ok () ↔ Succeeds (read fromisoformat entry) := by
  constructor
  · intro ok
    unfold loadEntry at ok
    split at ok
    · cases ok
    · rename_i key conv first
      dsimp only at ok
      split at ok
      · cases ok
      · rename_i found second
        exact ⟨_, bind_eq_ok.mpr ⟨_, first, bind_eq_ok.mpr ⟨_, second, rfl⟩⟩⟩
  · rintro ⟨reading, ok⟩
    rw [loadEntry_read ok]

theorem loadFile_ok_iff (file : File) (s : Tables) : (loadFile fromisoformat file.data s).1 = .ok () ↔
    Succeeds file.data ∧ ∀ entry ∈ file.entries, Succeeds (read fromisoformat entry) := by
  obtain ⟨name, data⟩ := file
  cases data with
  | error e => simp [loadFile]
  | ok value => simp [loadFile, File.entries, untilError_ok_iff loadEntry_ok_iff]

theorem loadEntries_read {entries : List Json} {readings : List Reading}
    (ok : entries.mapM (read fromisoformat) = .ok readings) :
    untilError (loadEntry fromisoformat) entries s = (.ok (), readings.foldl Tables.add s) := by
  induction entries generalizing readings s with
  | nil =>
      obtain rfl := Except.ok.inj ok
      rfl
  | cons entry rest ih =>
      rw [List.mapM_cons] at ok
      obtain ⟨reading, first, ok⟩ := bind_eq_ok.mp ok
      obtain ⟨found, later, same⟩ := bind_eq_ok.mp ok
      obtain rfl := Except.ok.inj same
      rw [untilError, loadEntry_read first, List.foldl_cons]
      exact ih later

theorem add_all (readings : List Reading) (s : Tables) : readings.foldl Tables.add s =
    ⟨Dict.update s.conversations (readings.map fun r => (r.1, r.2.1)),
      Dict.update s.messages (readings.map fun r => (r.1, r.2.2))⟩ := by
  induction readings generalizing s with
  | nil => rfl
  | cons reading rest ih =>
      rw [List.foldl_cons, ih]
      rfl

theorem lookup_map_snd {α β : Type} (f : α → β) (l : List (Key × α)) (key : Key) :
    (l.map fun e => (e.1, f e.2)).lookup key = (l.lookup key).map f := by
  induction l with
  | nil => rfl
  | cons e rest ih =>
      rw [List.map_cons, List.lookup_cons, List.lookup_cons, ih]
      by_cases same : key = e.1
      · simp [same]
      · simp [beq_false_of_ne same]

theorem holds_add (readings : List Reading) : Holds readings (readings.foldl Tables.add {}) := by
  rw [add_all]
  constructor
  · intro key
    rw [Dict.lookup_update_last, ← List.map_reverse, lookup_map_snd]
    simp
  · intro key
    rw [Dict.lookup_update_last, ← List.map_reverse, lookup_map_snd]
    simp
  · rw [Tables.conversationIds, Dict.update_keys, List.map_map]
    rfl

theorem sorted_ascending (files : List File) : (sorted files).Pairwise fun a b => atMost a b = true := by
  have trans : ∀ a b c : File, atMost a b = true → atMost b c = true → atMost a c = true :=
    fun _ _ _ first second => Lexicographic.atMost_trans Lexicographic.toNat_injective first second
  have total : ∀ a b : File, (atMost a b || atMost b a) = true := fun _ _ => Lexicographic.atMost_total
  exact List.pairwise_mergeSort trans total files

theorem mem_sorted {file : File} : file ∈ sorted directory ↔ file ∈ directory := (List.mergeSort_perm _ _).mem_iff

theorem sorted_perm (distinct : (directory.map File.name).Nodup) (same : other.Perm directory) :
    sorted other = sorted directory := by
  have perm : (sorted other).Perm (sorted directory) :=
    ((List.mergeSort_perm _ _).trans same).trans (List.mergeSort_perm _ _).symm
  refine List.Perm.eq_of_pairwise ?_ (sorted_ascending other) (sorted_ascending directory) perm
  intro a b inOther inDirectory low high
  have names : a.name = b.name := String.toList_inj.mp (Lexicographic.atMost_antisymm Lexicographic.toNat_injective low high)
  exact List.inj_on_of_nodup_map distinct (same.mem_iff.mp (mem_sorted.mp inOther)) (mem_sorted.mp inDirectory) names

theorem load_ok_iff (distinct : (directory.map File.name).Nodup) (same : other.Perm directory) :
    (load fromisoformat (some other)).1 = .ok () ↔
      ∀ file ∈ directory, Succeeds file.data ∧ ∀ entry ∈ file.entries, Succeeds (read fromisoformat entry) := by
  rw [load, sorted_perm distinct same, untilError_ok_iff loadFile_ok_iff]
  simp only [mem_sorted]

theorem load_readings (distinct : (directory.map File.name).Nodup) (same : other.Perm directory)
    (texts : ∀ file ∈ directory, Succeeds file.data) {readings : List Reading}
    (readable : ((sorted directory).flatMap File.entries).mapM (read fromisoformat) = .ok readings) :
    load fromisoformat (some other) = (.ok (), readings.foldl Tables.add {}) := by
  have flat : ∀ file ∈ sorted directory, ∀ s, loadFile fromisoformat file.data s =
      untilError (loadEntry fromisoformat) file.entries s := by
    intro file member s
    obtain ⟨data, fine⟩ := texts file (mem_sorted.mp member)
    simp only [loadFile, File.entries, fine]
  rw [load, sorted_perm distinct same, untilError_flatMap flat, loadEntries_read readable]

/-- Two files for one conversation, the second with a message. -/
def earlierFile : File :=
  ⟨"a.json", .ok (.obj [("conversation", .obj [("id", .str "c_1"), ("userId", .str "u_1")])])⟩

def laterFile : File where
  name := "b.json"
  data := .ok (.arr [.obj [("conversation", .obj [("id", .str "c_1"), ("userId", .str "u_2")]),
    ("messages", .arr [.obj [("id", .str "m_1"), ("authorKind", .str "user"), ("text", .str "hello")]])]])

/-- A conversation stands under its own id, and messages belong to a conversation. -/
structure Keyed (s : Tables) : Prop where
  own : ∀ key conv, s.conversations.lookup key = some conv → keyOf conv.id = .ok key
  known : ∀ key found, s.messages.lookup key = some found → (s.conversations.lookup key).isSome
  once : s.conversationIds.Nodup ∧ (s.messages.map Prod.fst).Nodup

theorem keyed_conversation (keyed : Keyed s) {key : Key} {conv : Conversation Json} (own : keyOf conv.id = .ok key) :
    Keyed { s with conversations := Dict.put key conv s.conversations } where
  own := by
    intro k c found
    rw [Dict.lookup_put] at found
    split at found
    · rename_i same
      obtain rfl := Option.some.inj found
      exact same ▸ own
    · exact keyed.own k c found
  known := by
    intro k found stored
    have before := keyed.known k found stored
    rw [Dict.lookup_put]
    split
    · rfl
    · exact before
  once := ⟨Dict.put_distinct keyed.once.1, keyed.once.2⟩

theorem keyed_messages (keyed : Keyed s) {key : Key} (found : List (Message Json))
    (known : (s.conversations.lookup key).isSome) : Keyed { s with messages := Dict.put key found s.messages } where
  own := keyed.own
  known := by
    intro k other stored
    rw [Dict.lookup_put] at stored
    split at stored
    · rename_i same
      exact same ▸ known
    · exact keyed.known k other stored
  once := ⟨keyed.once.1, Dict.put_distinct keyed.once.2⟩

theorem lookup_new (key : Key) (conv : Conversation Json) :
    ((Dict.put key conv s.conversations).lookup key).isSome := by
  rw [Dict.lookup_put]
  simp

theorem conversationOf_own {entry : Json} {key : Key} {conv : Conversation Json}
    (ok : conversationOf fromisoformat entry = .ok (key, conv)) : keyOf conv.id = .ok key := by
  unfold conversationOf at ok
  obtain ⟨data, -, ok⟩ := bind_eq_ok.mp ok
  obtain ⟨read, -, ok⟩ := bind_eq_ok.mp ok
  obtain ⟨found, own, same⟩ := bind_eq_ok.mp ok
  obtain ⟨rfl, rfl⟩ := Prod.mk.inj (Except.ok.inj same)
  exact own

theorem keyed_loadEntry (entry : Json) (s : Tables) (keyed : Keyed s) : Keyed (loadEntry fromisoformat entry s).2 := by
  unfold loadEntry
  cases first : conversationOf fromisoformat entry with
  | error e => exact keyed
  | ok found =>
      obtain ⟨key, conv⟩ := found
      have next := keyed_conversation keyed (conversationOf_own first)
      dsimp only
      cases messagesOf fromisoformat conv.id entry with
      | error e => exact next
      | ok found => exact keyed_messages next found (lookup_new key conv)

theorem keyed_change (c : Change) (keyed : Keyed s) : Keyed (change fromisoformat s c).2 := by
  cases c with
  | file data =>
      cases data with
      | error e => exact keyed
      | ok data => exact untilError_keeps keyed_loadEntry keyed
  | conversation conv messages =>
      simp only [change, addConversation]
      cases own : keyOf conv.id with
      | error e => exact keyed
      | ok key => exact keyed_messages (keyed_conversation keyed own) _ (lookup_new key conv)

/-- Every conversation has its messages, and in the same place. -/
def Tables.Complete (s : Tables) : Prop := s.conversationIds = s.messages.map Prod.fst

theorem complete_add (complete : s.Complete) (reading : Reading) : (s.add reading).Complete := by
  have same : s.conversations.map Prod.fst = s.messages.map Prod.fst := complete
  simp only [Tables.Complete, Tables.conversationIds, Tables.add, Dict.put_keys, same]

theorem complete_change (complete : s.Complete) (c : Change) (ok : (change fromisoformat s c).1 = .ok ()) :
    (change fromisoformat s c).2.Complete := by
  cases c with
  | file data =>
      cases data with
      | error e => cases ok
      | ok data =>
          obtain ⟨readings, read⟩ := succeeds_mapM.mpr ((untilError_ok_iff loadEntry_ok_iff).mp ok)
          rw [change, loadFile, loadEntries_read read]
          clear read ok
          induction readings generalizing s with
          | nil => exact complete
          | cons reading rest ih => exact ih (complete_add complete reading)
  | conversation conv messages =>
      simp only [change, addConversation] at ok ⊢
      cases own : keyOf conv.id with
      | error e =>
          rw [own] at ok
          cases ok
      | ok key => exact complete_add complete (key, conv, messages.getD [])

/-- Whatever is loaded and whatever raises: no messages without their conversation, and a
    conversation without messages only after a load that raised. -/
theorem changes_keyed (changes : List Change) :
    Keyed (Machine.run (change fromisoformat) {} changes) ∧
      ((∀ answer ∈ Machine.answers (change fromisoformat) {} changes, answer.2 = .ok ()) →
        (Machine.run (change fromisoformat) {} changes).Complete) := by
  have start : Keyed {} :=
    ⟨fun _ _ found => (by cases found), fun _ _ found => (by cases found), List.nodup_nil, List.nodup_nil⟩
  have kept := @Machine.answers_invariant _ _ _ (change fromisoformat) {}
    (fun past s => Keyed s ∧ ((∀ answer ∈ past, answer.2 = .ok ()) → s.Complete)) [] ⟨start, fun _ => rfl⟩
    (by
      rintro past s c ⟨keyed, complete⟩
      refine ⟨keyed_change c keyed, fun all => ?_⟩
      have before : ∀ answer ∈ past, answer.2 = .ok () := fun answer member =>
        all answer (List.mem_append_left _ member)
      exact complete_change (complete before) c (all (c, _) (by simp)))
    changes
  exact kept

end Nipoto.Connectors.Fixtures
