import Mathlib.Logic.Function.Basic

/-! # The domain models of the main backend

app/connectors/base.py and app/core/actor.py. `V` is the type of the values that
are taken over as they come: strings in the in-memory backend, any JSON value on
the wire.
-/

namespace Nipoto.Connectors

/-- `datetime`: the reading of the local clock in microseconds, and the offset from
    UTC unless the value is naive. -/
structure DateTime where
  reading : Int
  offset : Option Int
  deriving DecidableEq, Repr

inductive HandledBy where
  | assistant
  | staff
  deriving DecidableEq, Repr

inductive AuthorKind where
  | user
  | staff
  | assistant
  | system
  deriving DecidableEq, Repr

inductive ConversationStatus where
  | queued
  | opened
  | closed
  deriving DecidableEq, Repr

inductive Role where
  | staff
  | user
  | guest
  | service
  | admin
  deriving DecidableEq, Repr

structure Actor where
  userId : String
  role : Role
  deriving DecidableEq, Repr

def Actor.isStaffSide (actor : Actor) : Bool :=
  actor.role = .staff ∨ actor.role = .admin ∨ actor.role = .service

structure Conversation (V : Type) where
  id : V
  ownerId : V
  status : ConversationStatus
  handledBy : HandledBy
  departmentId : Option V := none
  staffId : Option V := none
  title : Option V := none
  createdAt : Option DateTime := none
  updatedAt : Option DateTime := none
  deriving DecidableEq, Repr

structure Message (V : Type) where
  id : V
  authorKind : AuthorKind
  text : V
  sentAt : Option DateTime := none
  authorId : Option V := none
  conversationId : Option V := none
  hasAttachment : Bool := false
  deriving DecidableEq, Repr

structure KbItem (V : Type) where
  id : V
  type : V
  visibility : V
  title : V
  body : V
  url : Option V := none
  updatedAt : Option DateTime := none
  deleted : Bool := false
  deriving DecidableEq, Repr

structure OrderSummary (V : Type) where
  id : V
  status : V
  createdAtJalali : V
  lastEvent : Option V := none
  lastEventAtJalali : Option V := none
  deriving DecidableEq, Repr

/-- The texts of `BackendUnavailable`. -/
inductive Unavailable where
  /-- "Main backend is unreachable." -/
  | unreachable
  /-- "Main backend returned {status}." -/
  | returned (status : Int)
  /-- "Main backend returned a malformed body." -/
  | malformed
  deriving DecidableEq, Repr

/-- What a call may raise. -/
inductive Error where
  /-- "No conversation {convId}." -/
  | conversationNotFound (convId : Option String)
  | backendUnavailable (reason : Unavailable)
  | keyError (key : String)
  | typeError
  | valueError
  | attributeError
  deriving DecidableEq, Repr

/-- `later > earlier`; a naive value cannot be compared with an aware one. -/
def DateTime.after (later earlier : DateTime) : Except Error Bool :=
  match later.offset, earlier.offset with
  | none, none => .ok (earlier.reading < later.reading)
  | some a, some b => .ok (earlier.reading - b < later.reading - a)
  | _, _ => .error .typeError

end Nipoto.Connectors
