import Nipoto.Connectors.AppendOnly
import Nipoto.Connectors.Fixtures
import Nipoto.Connectors.Remote

/-! # What is served from the fixtures

From the files of the directory to the answers of the in-memory backend, after any
run of calls.
-/

namespace Nipoto.Connectors.Fixtures

open Fallible FakeMainBackend Machine

/-- An entry whose values are texts. -/
structure Fixture where
  conv : Conversation String
  messages : List (Message String)

def Fixture.reading (f : Fixture) : Reading :=
  (.text f.conv.id, f.conv.map .str, f.messages.map (Message.map .str))

def lastOf (fixtures : List Fixture) (id : String) : Option Fixture := fixtures.reverse.find? (·.conv.id = id)

/-- The backend that the two dictionaries make. -/
structure Built (s : Tables) (backend : FakeMainBackend) : Prop where
  conversations : ∀ id, s.conversations.lookup (.text id) = (backend.conversations id).map (Conversation.map .str)
  messages : ∀ id, s.messages.lookup (.text id) = (backend.messages id).map (List.map (Message.map .str))

def Sees (actor : Actor) (conv : Conversation String) : Prop := actor.isStaffSide = true ∨ conv.ownerId = actor.userId

/-- Who may see a conversation finds it as in its last fixture, except for a handoff, with
    the messages of the fixture and later ones. Anyone else finds nothing. -/
structure Serves (fixtures : List Fixture) (backend : FakeMainBackend) : Prop where
  found : ∀ id f, lastOf fixtures id = some f → ∃ conv later, Kept f.conv conv ∧ ∀ actor, Sees actor f.conv →
    (backend.getConversation id actor).1 = .ok (.conversation conv) ∧
      ∀ limit, (backend.getMessages id actor limit).1 = .ok (.messages (lastMessages (f.messages ++ later) limit))
  hidden : ∀ id actor, (∀ f, lastOf fixtures id = some f → ¬ Sees actor f.conv) →
    (backend.getConversation id actor).1 = .error (.conversationNotFound id) ∧
      ∀ limit, (backend.getMessages id actor limit).1 = .error (.conversationNotFound id)

theorem str_injective : Function.Injective Json.str := fun _ _ same => Json.str.inj same

theorem conversation_map_injective : Function.Injective (Conversation.map Json.str) := by
  intro a b same
  cases a
  cases b
  simpa [Conversation.map, (Option.map_injective str_injective).eq_iff] using same

theorem message_map_injective : Function.Injective (Message.map Json.str) := by
  intro a b same
  cases a
  cases b
  simpa [Message.map, (Option.map_injective str_injective).eq_iff] using same

theorem lookup_readings (fixtures : List Fixture) (id : String) :
    (fixtures.map Fixture.reading).lookup (.text id) =
      (fixtures.find? (·.conv.id = id)).map fun f => f.reading.2 := by
  induction fixtures with
  | nil => rfl
  | cons f rest ih =>
      rw [List.map_cons, List.lookup_cons, ih, List.find?_cons]
      by_cases here : f.conv.id = id
      · simp [Fixture.reading, here]
      · have other : Key.text id ≠ f.reading.1 := fun same => here (Key.text.inj same).symm
        simp [here, beq_false_of_ne other]

variable {fixtures : List Fixture} {s : Tables} {backend : FakeMainBackend}

theorem lookup_last (fixtures : List Fixture) (id : String) :
    (fixtures.map Fixture.reading).reverse.lookup (.text id) =
      (lastOf fixtures id).map fun f => f.reading.2 := by
  rw [← List.map_reverse, lookup_readings]
  rfl

/-- What the backend has before any call. -/
theorem built_holds (built : Built s backend) (holds : Holds (fixtures.map Fixture.reading) s) (id : String) :
    backend.conversations id = (lastOf fixtures id).map Fixture.conv ∧
      backend.messages id = (lastOf fixtures id).map Fixture.messages := by
  constructor
  · apply Option.map_injective conversation_map_injective
    rw [← built.conversations, holds.conversations, lookup_last, Option.map_map, Option.map_map]
    rfl
  · apply Option.map_injective (List.map_injective_iff.mpr message_map_injective)
    rw [← built.messages, holds.messages, lookup_last, Option.map_map, Option.map_map]
    rfl

/-- The backend with nothing but the fixtures. -/
def backendOf (fixtures : List Fixture) : FakeMainBackend where
  conversations id := (lastOf fixtures id).map Fixture.conv
  messages id := (lastOf fixtures id).map Fixture.messages

theorem backendOf_built (holds : Holds (fixtures.map Fixture.reading) s) : Built s (backendOf fixtures) where
  conversations id := by
    rw [holds.conversations, lookup_last, backendOf, Option.map_map, Option.map_map]
    rfl
  messages id := by
    rw [holds.messages, lookup_last, backendOf, Option.map_map, Option.map_map]
    rfl

theorem visible_sees {id : String} {conv : Conversation String} (known : backend.conversations id = some conv)
    {actor : Actor} (sees : Sees actor conv) : backend.visible id actor = .ok conv := by
  have allowed : ¬ (actor.isStaffSide = false ∧ conv.ownerId ≠ actor.userId) := by
    rintro ⟨outside, foreign⟩
    cases sees with
    | inl staff => exact absurd staff (by simp [outside])
    | inr own => exact foreign own
  simp only [visible, known, if_neg allowed]

theorem visible_not_sees {id : String} {actor : Actor}
    (unseen : ∀ conv, backend.conversations id = some conv → ¬ Sees actor conv) :
    backend.visible id actor = .error (.conversationNotFound id) := by
  cases known : backend.conversations id with
  | none => simp only [visible, known]
  | some conv =>
      obtain ⟨outside, foreign⟩ := not_or.mp (unseen conv known)
      simp only [visible, known, if_pos (And.intro (Bool.eq_false_iff.mpr outside) foreign)]

theorem sees_kept {earlier later : Conversation String} (kept : Kept earlier later) (actor : Actor) :
    Sees actor later ↔ Sees actor earlier := by
  have owner : later.ownerId = earlier.ownerId := by rw [kept.fields]
  simp only [Sees, owner]

theorem serves_of_grows {after : FakeMainBackend} (grows : Grows backend after)
    (before : ∀ id, backend.conversations id = (lastOf fixtures id).map Fixture.conv ∧
      backend.messages id = (lastOf fixtures id).map Fixture.messages) : Serves fixtures after := by
  constructor
  · intro id f last
    have known : backend.conversations id = some f.conv := by rw [(before id).1, last]; rfl
    have first : backend.stored id = f.messages := by rw [stored, (before id).2, last]; rfl
    have still : (after.conversations id).isSome := by rw [grows.known, known]; rfl
    obtain ⟨conv, found⟩ := Option.isSome_iff_exists.mp still
    obtain ⟨later, grown⟩ := grows.messages id
    have kept := grows.conversations id f.conv conv known found
    refine ⟨conv, later, kept, fun actor sees => ?_⟩
    have visible := visible_sees found ((sees_kept kept actor).mpr sees)
    constructor
    · simp only [getConversation, visible]
      rfl
    · intro limit
      rw [← first, grown]
      simp only [getMessages, visible, Except.map, stored]
  · intro id actor unseen
    have gone : after.visible id actor = .error (.conversationNotFound id) := by
      apply visible_not_sees
      intro conv found
      have still : (backend.conversations id).isSome := by rw [← grows.known, found]; rfl
      obtain ⟨first, known⟩ := Option.isSome_iff_exists.mp still
      have kept := grows.conversations id first conv known found
      obtain ⟨f, last, rfl⟩ := Option.map_eq_some_iff.mp ((before id).1.symm.trans known)
      exact mt (sees_kept kept actor).mp (unseen f last)
    constructor
    · simp only [getConversation, gone]
      rfl
    · intro limit
      simp only [getMessages, gone, Except.map]

variable {fromisoformat : String → Option DateTime} {directory other : List File}

/-- The files of `earlierFile` and `laterFile` as fixtures. -/
def twoFixtures : List Fixture :=
  [⟨{ id := "c_1", ownerId := "u_1", status := .opened, handledBy := .assistant }, []⟩,
    ⟨{ id := "c_1", ownerId := "u_2", status := .opened, handledBy := .assistant },
      [{ id := "m_1", authorKind := .user, text := "hello", conversationId := some "c_1" }]⟩]

theorem twoFiles_sorted : sorted [earlierFile, laterFile] = [earlierFile, laterFile] :=
  List.mergeSort_of_pairwise (by decide)

theorem twoFiles_content : ((sorted [earlierFile, laterFile]).flatMap File.entries).mapM (read fun _ => none) =
    .ok (twoFixtures.map Fixture.reading) := by
  rw [twoFiles_sorted]
  rfl

theorem twoFiles_loaded : ∀ file ∈ [earlierFile, laterFile], Succeeds file.data := by
  simp [earlierFile, laterFile]

end Nipoto.Connectors.Fixtures
