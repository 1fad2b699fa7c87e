import Nipoto.Connectors.Effects

/-! # Other people's conversations

Two states that differ only in what belongs to others answer a user or a guest
alike. An error is compared with all that is shown of it.
-/

namespace Nipoto.Connectors

open Machine FakeMainBackend

/-- The class attributes of an `AppError`, and its detail. -/
structure Problem where
  statusCode : Nat
  code : String
  title : String
  detail : String
  deriving DecidableEq, Repr

def Unavailable.detail : Unavailable → String
  | .unreachable => "Main backend is unreachable."
  | .returned status => "Main backend returned " ++ toString status ++ "."
  | .malformed => "Main backend returned a malformed body."

/-- The problem of an error that is an `AppError`. `repr` is the source language's own. -/
def Error.problem (repr : Option String → String) : Error → Option Problem
  | .conversationNotFound convId => some {
      statusCode := 404
      code := "conversation_not_found"
      title := "Conversation Not Found"
      detail := "No conversation " ++ repr convId ++ "." }
  | .backendUnavailable reason => some {
      statusCode := 502
      code := "upstream_unavailable"
      title := "Upstream Unavailable"
      detail := reason.detail }
  | _ => none

/-- A result as the caller sees it. -/
def observed (repr : Option String → String) (result : Except Error Reply) :
    Except (Error × Option Problem) Reply :=
  result.mapError fun error => (error, error.problem repr)

/-- The two states agree on the user's own conversations, on their messages, on the
    user's orders and on the KB items. -/
structure AgreeFor (userId : String) (s t : FakeMainBackend) : Prop where
  conversations : ∀ convId, (s.conversations convId).filter (·.ownerId = userId) =
    (t.conversations convId).filter (·.ownerId = userId)
  messages : ∀ convId conv, s.conversations convId = some conv → conv.ownerId = userId →
    s.stored convId = t.stored convId
  orders : (s.orders userId).getD [] = (t.orders userId).getD []
  kbItems : s.kbItems = t.kbItems

/-- A call that reads, made by the actor if it is made on behalf of one. -/
def ReadBy (actor : Actor) : Call → Prop
  | .getConversation _ caller => caller = actor
  | .getMessages _ caller _ => caller = actor
  | .listKbItems _ => True
  | .getRecentOrders caller _ => caller = actor
  | .postAssistantMessage .. => False
  | .handoff .. => False

variable {s t : FakeMainBackend} {actor : Actor}

theorem visible_of_other (outside : actor.isStaffSide = false) (convId : String) :
    s.visible convId actor =
      match (s.conversations convId).filter (·.ownerId = actor.userId) with
      | none => .error (.conversationNotFound convId)
      | some conv => .ok conv := by
  cases found : s.conversations convId with
  | none => simp [visible, found]
  | some conv =>
      by_cases owned : conv.ownerId = actor.userId
      · simp [visible, found, owned, Option.filter]
      · simp [visible, found, owned, outside, Option.filter]

/-- What is visible does not depend on the conversations of others. -/
theorem visible_agree (outside : actor.isStaffSide = false) (agree : AgreeFor actor.userId s t) (convId : String) :
    s.visible convId actor = t.visible convId actor := by
  rw [visible_of_other outside, visible_of_other outside, agree.conversations]

theorem visible_owned (outside : actor.isStaffSide = false) {convId : String} {conv : Conversation String}
    (visible : s.visible convId actor = .ok conv) :
    s.conversations convId = some conv ∧ conv.ownerId = actor.userId := by
  rw [visible_of_other outside] at visible
  cases owned : (s.conversations convId).filter (·.ownerId = actor.userId) with
  | none => simp [owned] at visible
  | some found =>
      rw [owned] at visible
      obtain rfl := Except.ok.inj visible
      have known := Option.filter_eq_some_iff.mp owned
      exact ⟨known.1, by simpa using known.2⟩

theorem call_agree (outside : actor.isStaffSide = false) (agree : AgreeFor actor.userId s t) {x : Call}
    (reads : ReadBy actor x) : (s.call x).1 = (t.call x).1 := by
  cases x with
  | getConversation convId caller =>
      obtain rfl : caller = actor := reads
      simp only [call, getConversation, visible_agree outside agree]
  | getMessages convId caller limit =>
      obtain rfl : caller = actor := reads
      have same := visible_agree outside agree convId
      simp only [call, getMessages]
      rw [← same]
      cases visible : s.visible convId caller with
      | error raised => rfl
      | ok conv =>
          obtain ⟨found, owned⟩ := visible_owned outside visible
          have stored := agree.messages convId conv found owned
          simp only [FakeMainBackend.stored] at stored
          rw [stored]
  | listKbItems updatedSince => simp only [call, listKbItems, agree.kbItems]
  | getRecentOrders caller limit =>
      obtain rfl : caller = actor := reads
      simp only [call, getRecentOrders, agree.orders]
  | postAssistantMessage => exact reads.elim
  | handoff => exact reads.elim

/-- A user or guest cannot tell two such states apart, by no read call and no error. -/
theorem reads_cannot_tell (role : actor.role = .user ∨ actor.role = .guest) (agree : AgreeFor actor.userId s t)
    {x : Call} (reads : ReadBy actor x) (repr : Option String → String) :
    observed repr (s.call x).1 = observed repr (t.call x).1 := by
  have outside : actor.isStaffSide = false := by
    cases role with
    | inl user => simp [Actor.isStaffSide, user]
    | inr guest => simp [Actor.isStaffSide, guest]
  rw [call_agree outside agree reads]

/-- A conversation that belongs to someone else. -/
def hidingBackend : FakeMainBackend where
  conversations := fun convId =>
    if convId = "c" then some { id := "c", ownerId := "other", status := .opened, handledBy := .staff } else none
  messages := fun convId => if convId = "c" then some [{ id := "m", authorKind := .user, text := "private" }] else none

def visitor : Actor := { userId := "guest", role := .guest }

theorem reads_cannot_tell_hidden :
    observed (fun _ => "'c'") (hidingBackend.call (.getMessages "c" visitor 3)).1 =
      observed (fun _ => "'c'") (({} : FakeMainBackend).call (.getMessages "c" visitor 3)).1 := by
  have agree : AgreeFor visitor.userId hidingBackend {} := by
    constructor
    · intro convId
      by_cases here : convId = "c" <;> simp [hidingBackend, here, visitor, Option.filter]
    · intro convId conv found owned
      by_cases here : convId = "c"
      · simp only [hidingBackend, if_pos here] at found
        obtain rfl := Option.some.inj found
        exact absurd owned (by decide)
      · simp [hidingBackend, here] at found
    · rfl
    · rfl
  exact reads_cannot_tell (.inr rfl) agree (show ReadBy visitor (.getMessages "c" visitor 3) from rfl) _

end Nipoto.Connectors
