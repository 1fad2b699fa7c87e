import Nipoto.Connectors.Base
import Nipoto.General.Machine

/-! # The in-memory backend

`FakeMainBackend` of app/connectors/fake.py as a machine: a call answers or
raises, and moves to the next state either way. Dictionaries are functions.
-/

namespace Nipoto.Connectors

structure FakeMainBackend where
  /-- `BackendCalls.counts`. -/
  calls : String → Nat := fun _ => 0
  conversations : String → Option (Conversation String) := fun _ => none
  messages : String → Option (List (Message String)) := fun _ => none
  kbItems : List (KbItem String) := []
  orders : String → Option (List (OrderSummary String)) := fun _ => none
  /-- The next number of `count(1)`. -/
  ids : Nat := 1
  idempotency : String → Option String := fun _ => none
  handoffs : List (String × String) := []

/-- A call of the interface. `now` is what the clock shows during the call. -/
inductive Call where
  | getConversation (convId : String) (actor : Actor)
  | getMessages (convId : String) (actor : Actor) (limit : Int)
  | listKbItems (updatedSince : Option DateTime)
  | getRecentOrders (actor : Actor) (limit : Int)
  | postAssistantMessage (convId text idemKey : String) (now : DateTime)
  | handoff (convId reason : String)
  deriving DecidableEq, Repr

inductive Reply where
  | conversation (conv : Conversation String)
  | messages (messages : List (Message String))
  | kbItems (items : List (KbItem String))
  | orders (orders : List (OrderSummary String))
  | posted (messageId : String)
  | done
  deriving DecidableEq, Repr

namespace FakeMainBackend

def record (s : FakeMainBackend) (name : String) : FakeMainBackend :=
  { s with calls := Function.update s.calls name (s.calls name + 1) }

def setHandledBy (s : FakeMainBackend) (convId : String) (conv : Conversation String)
    (handledBy : HandledBy) : FakeMainBackend :=
  { s with conversations := Function.update s.conversations convId (some { conv with handledBy }) }

/-- The ownership rule. -/
def visible (s : FakeMainBackend) (convId : String) (actor : Actor) : Except Error (Conversation String) :=
  match s.conversations convId with
  | none => .error (.conversationNotFound convId)
  | some conv =>
      if actor.isStaffSide = false ∧ conv.ownerId ≠ actor.userId then
        .error (.conversationNotFound convId)
      else .ok conv

/-- `messages[-limit:]`. -/
def lastMessages (messages : List (Message String)) (limit : Int) : List (Message String) :=
  if 0 < limit then messages.drop (messages.length - limit.toNat) else []

/-- `orders[:limit]`; a negative limit counts from the end. -/
def firstOrders (orders : List (OrderSummary String)) (limit : Int) : List (OrderSummary String) :=
  if 0 ≤ limit then orders.take limit.toNat else orders.take (orders.length - (-limit).toNat)

/-- `item.updated_at is not None and item.updated_at > updated_since`. -/
def changedSince (since : DateTime) (item : KbItem String) : Except Error Bool :=
  match item.updatedAt with
  | none => .ok false
  | some updatedAt => updatedAt.after since

/-- The comprehension of `list_kb_items`. -/
def changedItems (since : DateTime) : List (KbItem String) → Except Error (List (KbItem String))
  | [] => .ok []
  | item :: rest => do
      let changed ← changedSince since item
      let later ← changedItems since rest
      return if changed then item :: later else later

def getConversation (s : FakeMainBackend) (convId : String) (actor : Actor) :
    Except Error Reply × FakeMainBackend :=
  (Reply.conversation <$> s.visible convId actor, s.record "get_conversation")

def getMessages (s : FakeMainBackend) (convId : String) (actor : Actor) (limit : Int) :
    Except Error Reply × FakeMainBackend :=
  let stored := (s.messages convId).getD []
  ((s.visible convId actor).map fun _ => .messages (lastMessages stored limit), s.record "get_messages")

def listKbItems (s : FakeMainBackend) (updatedSince : Option DateTime) :
    Except Error Reply × FakeMainBackend :=
  let items := match updatedSince with
    | none => .ok s.kbItems
    | some since => changedItems since s.kbItems
  (Reply.kbItems <$> items, s.record "list_kb_items")

def getRecentOrders (s : FakeMainBackend) (actor : Actor) (limit : Int) :
    Except Error Reply × FakeMainBackend :=
  (.ok (.orders (firstOrders ((s.orders actor.userId).getD []) limit)), s.record "get_recent_orders")

/-- `f"m_fake_{number}"`. -/
def messageId (number : Nat) : String := "m_fake_" ++ Nat.repr number

def assistantMessage (id convId text : String) (now : DateTime) : Message String :=
  { id, authorKind := .assistant, text, sentAt := some now, conversationId := some convId }

/-- Append a message of the assistant under the next number. -/
def append (s : FakeMainBackend) (convId text idemKey : String) (now : DateTime) : FakeMainBackend :=
  let id := messageId s.ids
  let stored := (s.messages convId).getD []
  { s with
    messages := Function.update s.messages convId (some (stored ++ [assistantMessage id convId text now]))
    ids := s.ids + 1
    idempotency := Function.update s.idempotency idemKey (some id) }

def postAssistantMessage (s : FakeMainBackend) (convId text idemKey : String) (now : DateTime) :
    Except Error Reply × FakeMainBackend :=
  let s := s.record "post_assistant_message"
  match s.conversations convId with
  | none => (.error (.conversationNotFound convId), s)
  | some _ =>
      match s.idempotency idemKey with
      | some id => (.ok (.posted id), s)
      | none => (.ok (.posted (messageId s.ids)), s.append convId text idemKey now)

def handoff (s : FakeMainBackend) (convId reason : String) : Except Error Reply × FakeMainBackend :=
  let s := s.record "handoff"
  match s.conversations convId with
  | none => (.error (.conversationNotFound convId), s)
  | some conv =>
      let s := s.setHandledBy convId conv .staff
      (.ok .done, { s with handoffs := s.handoffs ++ [(convId, reason)] })

def call (s : FakeMainBackend) : Call → Except Error Reply × FakeMainBackend
  | .getConversation convId actor => s.getConversation convId actor
  | .getMessages convId actor limit => s.getMessages convId actor limit
  | .listKbItems updatedSince => s.listKbItems updatedSince
  | .getRecentOrders actor limit => s.getRecentOrders actor limit
  | .postAssistantMessage convId text idemKey now => s.postAssistantMessage convId text idemKey now
  | .handoff convId reason => s.handoff convId reason

end FakeMainBackend

end Nipoto.Connectors
