import Nipoto.Connectors.Base
import Nipoto.General.Json
import Nipoto.Text.Str

/-! # The wire format

app/connectors/mapping.py. A reply can be any JSON value, so every access can
fail the way it does in the source's language. `fromisoformat` is the standard
library's.
-/

namespace Nipoto.Connectors

/-- `data[key]`. -/
def subscript (data : Json) (key : String) : Except Error Json :=
  match data with
  | .obj fields =>
      match fields.lookup key with
      | some value => .ok value
      | none => .error (.keyError key)
  | _ => .error .typeError

/-- `data.get(key, default)`. -/
def get (data : Json) (key : String) (default : Json) : Except Error Json :=
  match data with
  | .obj fields => .ok ((fields.lookup key).getD default)
  | _ => .error .attributeError

/-- JSON's null is `None`. -/
def optional : Json → Option Json
  | .null => none
  | value => some value

/-- `value.replace("Z", "+00:00")`. -/
def withOffset (value : String) : String :=
  String.ofList (Text.replaceChar 'Z' "+00:00".toList value.toList)

def parseDt (fromisoformat : String → Option DateTime) (value : Json) : Except Error (Option DateTime) :=
  if value.truthy = false then .ok none
  else
    match value with
    | .str text =>
        match fromisoformat (withOffset text) with
        | some time => .ok (some time)
        | none => .error .valueError
    | _ => .error .attributeError

def conversationStatus : Json → Except Error ConversationStatus
  | .str "queued" => .ok .queued
  | .str "opened" => .ok .opened
  | .str "closed" => .ok .closed
  | _ => .error .valueError

def handledBy : Json → Except Error HandledBy
  | .str "assistant" => .ok .assistant
  | .str "staff" => .ok .staff
  | _ => .error .valueError

def authorKind : Json → Except Error AuthorKind
  | .str "user" => .ok .user
  | .str "staff" => .ok .staff
  | .str "assistant" => .ok .assistant
  | .str "system" => .ok .system
  | _ => .error .valueError

variable (fromisoformat : String → Option DateTime)

def conversationFromJson (data : Json) : Except Error (Conversation Json) := do
  let id ← subscript data "id"
  let ownerId ← subscript data "userId"
  let status ← conversationStatus (← get data "status" (.str "opened"))
  let handledBy ← handledBy (← get data "handledBy" (.str "assistant"))
  let departmentId ← get data "departmentId" .null
  let staffId ← get data "staffId" .null
  let title ← get data "title" .null
  let createdAt ← parseDt fromisoformat (← get data "createdAt" .null)
  let updatedAt ← parseDt fromisoformat (← get data "updatedAt" .null)
  return {
    id, ownerId, status, handledBy, departmentId := optional departmentId, staffId := optional staffId
    title := optional title, createdAt, updatedAt }

def messageFromJson (convId : String) (data : Json) : Except Error (Message Json) := do
  let id ← subscript data "id"
  let authorKind ← authorKind (← subscript data "authorKind")
  let text ← subscript data "text"
  let sentAt ← parseDt fromisoformat (← get data "sentAt" .null)
  let authorId ← get data "authorId" .null
  let conversationId ← get data "conversationId" (.str convId)
  let hasAttachment ← get data "hasAttachment" (.bool false)
  return {
    id, authorKind, text, sentAt, authorId := optional authorId
    conversationId := optional conversationId, hasAttachment := hasAttachment.truthy }

def kbItemFromJson (data : Json) : Except Error (KbItem Json) := do
  let id ← subscript data "id"
  let type ← subscript data "type"
  let visibility ← subscript data "visibility"
  let title ← get data "title" (.str "")
  let body ← get data "body" (.str "")
  let url ← get data "url" .null
  let updatedAt ← parseDt fromisoformat (← get data "updatedAt" .null)
  let deleted ← get data "deleted" (.bool false)
  return { id, type, visibility, title, body, url := optional url, updatedAt, deleted := deleted.truthy }

def orderFromJson (data : Json) : Except Error (OrderSummary Json) := do
  let id ← subscript data "id"
  let status ← subscript data "status"
  let createdAtJalali ← subscript data "createdAtJalali"
  let lastEvent ← get data "lastEvent" .null
  let lastEventAtJalali ← get data "lastEventAtJalali" .null
  return {
    id, status, createdAtJalali, lastEvent := optional lastEvent
    lastEventAtJalali := optional lastEventAtJalali }

end Nipoto.Connectors
