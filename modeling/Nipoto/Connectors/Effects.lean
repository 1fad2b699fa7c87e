import Nipoto.Connectors.Fake

/-! # What a call of the in-memory backend can do

One case for each kind of effect. Everything about runs is derived from these.
-/

namespace Nipoto.Connectors

namespace FakeMainBackend

/-- The messages of a conversation. -/
def stored (s : FakeMainBackend) (convId : String) : List (Message String) := (s.messages convId).getD []

/-- The two states have the same conversations, messages and keys. -/
structure SameData (s t : FakeMainBackend) : Prop where
  conversations : t.conversations = s.conversations
  messages : t.messages = s.messages
  idempotency : t.idempotency = s.idempotency

inductive Effect (s : FakeMainBackend) : Call → Except Error Reply → FakeMainBackend → Prop
  /-- The key is new and the message is appended. -/
  | appended {convId text idemKey now} (found : (s.conversations convId).isSome)
      (unseen : s.idempotency idemKey = none) :
      Effect s (.postAssistantMessage convId text idemKey now) (.ok (.posted (messageId s.ids)))
        ((s.record "post_assistant_message").append convId text idemKey now)
  /-- The key is known and its message is answered. -/
  | replayed {convId text idemKey now id} (found : (s.conversations convId).isSome)
      (seen : s.idempotency idemKey = some id) :
      Effect s (.postAssistantMessage convId text idemKey now) (.ok (.posted id))
        (s.record "post_assistant_message")
  | handedOff {convId reason conv} (found : s.conversations convId = some conv) :
      Effect s (.handoff convId reason) (.ok .done)
        { (s.record "handoff").setHandledBy convId conv .staff with
          handoffs := s.handoffs ++ [(convId, reason)] }
  /-- Any other call, and a post to an unknown conversation. -/
  | quiet {x reply t} (same : SameData s t)
      (noPost : ∀ convId text idemKey now, x = .postAssistantMessage convId text idemKey now →
        s.conversations convId = none ∧ reply = .error (.conversationNotFound convId)) :
      Effect s x reply t

theorem record_sameData (s : FakeMainBackend) (name : String) : SameData s (s.record name) :=
  ⟨rfl, rfl, rfl⟩

theorem call_effect (s : FakeMainBackend) (x : Call) : Effect s x (s.call x).1 (s.call x).2 := by
  cases x with
  | getConversation convId actor => exact .quiet (record_sameData s _) (by simp)
  | getMessages convId actor limit => exact .quiet (record_sameData s _) (by simp)
  | listKbItems updatedSince => exact .quiet (record_sameData s _) (by simp)
  | getRecentOrders actor limit => exact .quiet (record_sameData s _) (by simp)
  | postAssistantMessage convId text idemKey now =>
      cases found : s.conversations convId with
      | none =>
          have missing : (s.record "post_assistant_message").conversations convId = none := found
          simp only [call, postAssistantMessage, missing]
          refine .quiet (record_sameData s _) ?_
          intro c t k n same
          cases same
          exact ⟨found, rfl⟩
      | some conv =>
          have here : (s.record "post_assistant_message").conversations convId = some conv := found
          cases known : s.idempotency idemKey with
          | none =>
              have unseen : (s.record "post_assistant_message").idempotency idemKey = none := known
              simp only [call, postAssistantMessage, here, unseen]
              exact .appended (by simp [found]) known
          | some id =>
              have seen : (s.record "post_assistant_message").idempotency idemKey = some id := known
              simp only [call, postAssistantMessage, here, seen]
              exact .replayed (by simp [found]) known
  | handoff convId reason =>
      cases found : s.conversations convId with
      | none =>
          have missing : (s.record "handoff").conversations convId = none := found
          simp only [call, handoff, missing]
          exact .quiet (record_sameData s _) (by simp)
      | some conv =>
          have here : (s.record "handoff").conversations convId = some conv := found
          simp only [call, handoff, here]
          exact .handedOff found

variable {s : FakeMainBackend}

theorem stored_append (convId text idemKey : String) (now : DateTime) (c : String) :
    (s.append convId text idemKey now).stored c =
      if c = convId then s.stored c ++ [assistantMessage (messageId s.ids) convId text now] else s.stored c := by
  by_cases same : c = convId
  · subst same
    simp [stored, append]
  · simp [stored, append, same]

theorem idempotency_append (convId text idemKey : String) (now : DateTime) (key : String) :
    (s.append convId text idemKey now).idempotency key =
      if key = idemKey then some (messageId s.ids) else s.idempotency key := by
  simp [append, Function.update_apply]

theorem isSome_setHandledBy {convId : String} {conv : Conversation String}
    (found : s.conversations convId = some conv) (handledBy : HandledBy) (c : String) :
    ((s.setHandledBy convId conv handledBy).conversations c).isSome = (s.conversations c).isSome := by
  by_cases same : c = convId <;> simp [setHandledBy, same, found]

end FakeMainBackend

end Nipoto.Connectors
