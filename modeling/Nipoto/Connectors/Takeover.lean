import Nipoto.Connectors.Effects

/-! # After staff takes over

No call gives a conversation back to the assistant, but a post does not look at
who handles the conversation. So a run adds no assistant message after a handoff
just when no new key is posted to a conversation that staff handles.
-/

namespace Nipoto.Connectors

open Machine FakeMainBackend

namespace FakeMainBackend

def StaffHandled (s : FakeMainBackend) (convId : String) : Prop :=
  ∃ conv, s.conversations convId = some conv ∧ conv.handledBy = .staff

def assistantMessages (s : FakeMainBackend) (convId : String) : List (Message String) :=
  (s.stored convId).filter (·.authorKind = .assistant)

/-- A post of a new key to a conversation that staff handles. -/
def PostsAfterTakeover (s : FakeMainBackend) : Call → Prop
  | .postAssistantMessage convId _ idemKey _ => s.StaffHandled convId ∧ s.idempotency idemKey = none
  | _ => False

/-- Such a post fails and writes nothing. -/
def Refuses (s : FakeMainBackend) (x : Call) : Prop :=
  s.PostsAfterTakeover x →
    (∃ error, (s.call x).1 = .error error) ∧ ∀ convId, (s.call x).2.stored convId = s.stored convId

end FakeMainBackend

/-- What the contract says of a run. -/
structure SilentAfterTakeover (s : FakeMainBackend) (calls : List Call) : Prop where
  refused : Along call Refuses s calls
  silent : ∀ before after convId, calls = before ++ after →
    (run call s before).StaffHandled convId →
      (run call s calls).assistantMessages convId = (run call s before).assistantMessages convId

variable {s : FakeMainBackend}

theorem post_after_takeover_succeeds {x : Call} (late : s.PostsAfterTakeover x) :
    ¬ ∃ error, (s.call x).1 = .error error := by
  intro failed
  obtain ⟨error, failed⟩ := failed
  cases x with
  | postAssistantMessage convId text idemKey now =>
      obtain ⟨⟨conv, found, -⟩, unseen⟩ := late
      have here : (s.record "post_assistant_message").conversations convId = some conv := found
      have new : (s.record "post_assistant_message").idempotency idemKey = none := unseen
      simp [call, postAssistantMessage, here, new] at failed
  | _ => exact late

theorem call_staffHandled {convId : String} (staff : s.StaffHandled convId) (x : Call) :
    (s.call x).2.StaffHandled convId := by
  obtain ⟨conv, found, handled⟩ := staff
  have effect := call_effect s x
  generalize (s.call x).1 = reply at effect
  generalize (s.call x).2 = t at effect ⊢
  cases effect with
  | appended => exact ⟨conv, found, handled⟩
  | replayed => exact ⟨conv, found, handled⟩
  | @handedOff other reason old =>
      by_cases same : convId = other
      · subst same
        exact ⟨{ old with handledBy := .staff }, by simp [setHandledBy], rfl⟩
      · exact ⟨conv, by simpa [setHandledBy, record, same] using found, handled⟩
  | quiet same => exact ⟨conv, by rw [same.conversations, found], handled⟩

theorem call_silent {convId : String} (staff : s.StaffHandled convId) {x : Call}
    (early : ¬ s.PostsAfterTakeover x) : (s.call x).2.stored convId = s.stored convId := by
  have effect := call_effect s x
  generalize (s.call x).1 = reply at effect
  generalize (s.call x).2 = t at effect ⊢
  cases effect with
  | @appended other text idemKey now found unseen =>
      have elsewhere : convId ≠ other := by
        rintro rfl
        exact early ⟨staff, unseen⟩
      rw [stored_append, if_neg elsewhere]
      rfl
  | replayed => rfl
  | handedOff => rfl
  | quiet same => rw [stored, same.messages, stored]

theorem silent_after_takeover_iff (calls : List Call) :
    SilentAfterTakeover s calls ↔ Along call (fun s x => ¬ s.PostsAfterTakeover x) s calls := by
  constructor
  · intro silent
    have refused := along_iff.mp silent.refused
    refine along_iff.mpr fun before x after split late => ?_
    exact post_after_takeover_succeeds late (refused before x after split late).1
  · intro early
    constructor
    · exact along_iff.mpr fun before x after split late =>
        absurd late (along_iff.mp early before x after split)
    · intro before after convId split staff
      rw [split, along_append] at early
      rw [split, run_append]
      have kept : (run call (run call s before) after).StaffHandled convId ∧
          (run call (run call s before) after).stored convId = (run call s before).stored convId := by
        refine run_invariant (J := fun t => t.StaffHandled convId ∧
          t.stored convId = (run call s before).stored convId) ⟨staff, rfl⟩ ?_ early.2
        intro t x holds early
        exact ⟨call_staffHandled holds.1 x, (call_silent holds.1 early).trans holds.2⟩
      rw [assistantMessages, kept.2, assistantMessages]

/-- A reply that was in flight during a handoff is written after it. -/
theorem reply_in_flight_is_written :
    ¬ ∀ (s : FakeMainBackend) (calls : List Call), SilentAfterTakeover s calls := by
  intro always
  have silent := (always
    { conversations := fun convId =>
        if convId = "c" then
          some { id := "c", ownerId := "customer", status := .opened, handledBy := .assistant }
        else none }
    [.handoff "c" "user_request", .postAssistantMessage "c" "hello" "key" ⟨0, none⟩]).silent
    [.handoff "c" "user_request"] [.postAssistantMessage "c" "hello" "key" ⟨0, none⟩] "c" rfl
    ⟨{ id := "c", ownerId := "customer", status := .opened, handledBy := .staff }, by decide, rfl⟩
  revert silent
  decide

end Nipoto.Connectors
