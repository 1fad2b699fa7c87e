import Nipoto.Connectors.Mapping

/-! # The schemas of the contract

How contracts/main-backend.openapi.yaml writes what a backend replies. A schema
names properties of an object; other ones may stand beside them in any order.
What is written so, the mapping reads back.
-/

namespace Nipoto.Connectors

section

variable {V W : Type} (f : V → W)

def Conversation.map (conv : Conversation V) : Conversation W where
  id := f conv.id
  ownerId := f conv.ownerId
  status := conv.status
  handledBy := conv.handledBy
  departmentId := conv.departmentId.map f
  staffId := conv.staffId.map f
  title := conv.title.map f
  createdAt := conv.createdAt
  updatedAt := conv.updatedAt

def Message.map (message : Message V) : Message W where
  id := f message.id
  authorKind := message.authorKind
  text := f message.text
  sentAt := message.sentAt
  authorId := message.authorId.map f
  conversationId := message.conversationId.map f
  hasAttachment := message.hasAttachment

def KbItem.map (item : KbItem V) : KbItem W where
  id := f item.id
  type := f item.type
  visibility := f item.visibility
  title := f item.title
  body := f item.body
  url := item.url.map f
  updatedAt := item.updatedAt
  deleted := item.deleted

def OrderSummary.map (order : OrderSummary V) : OrderSummary W where
  id := f order.id
  status := f order.status
  createdAtJalali := f order.createdAtJalali
  lastEvent := order.lastEvent.map f
  lastEventAtJalali := order.lastEventAtJalali.map f

end

def statusName : ConversationStatus → String
  | .queued => "queued"
  | .opened => "opened"
  | .closed => "closed"

def handledByName : HandledBy → String
  | .assistant => "assistant"
  | .staff => "staff"

def authorKindName : AuthorKind → String
  | .user => "user"
  | .staff => "staff"
  | .assistant => "assistant"
  | .system => "system"

/-- The properties of an object. -/
abbrev Properties := List (String × Json)

/-- A required property of type string. -/
def Properties.Text (fields : Properties) (key text : String) : Prop := fields.lookup key = some (.str text)

/-- A property of type string or null that is not required. -/
inductive Properties.Optional (fields : Properties) (key : String) : Option String → Prop
  | absent (found : fields.lookup key = none) : Optional fields key none
  | null (found : fields.lookup key = some .null) : Optional fields key none
  | text {text} (found : fields.lookup key = some (.str text)) : Optional fields key (some text)

/-- A property that is not required and has a default. -/
def Properties.Default (fields : Properties) (key : String) (default value : Json) : Prop :=
  fields.lookup key = some value ∨ fields.lookup key = none ∧ value = default

/-- A property of format date-time. Of the format it says only that some text is there. -/
structure Properties.Date (fields : Properties) (key text : String) : Prop where
  found : fields.Text key text
  some : text ≠ ""

variable (fromisoformat : String → Option DateTime) {fields : Properties} {key : String}

/-- A date that the standard library reads. -/
def Properties.Time (fields : Properties) (key : String) (time : DateTime) : Prop :=
  ∃ text, fields.Date key text ∧ fromisoformat (withOffset text) = some time

/-- A date that is not required. -/
def Properties.OptionalTime (fields : Properties) (key : String) : Option DateTime → Prop
  | some time => fields.Time fromisoformat key time
  | none => fields.lookup key = none

structure ConversationSchema (conv : Conversation String) (fields : Properties) : Prop where
  id : fields.Text "id" conv.id
  userId : fields.Text "userId" conv.ownerId
  status : fields.Text "status" (statusName conv.status)
  handledBy : fields.Text "handledBy" (handledByName conv.handledBy)
  departmentId : fields.Optional "departmentId" conv.departmentId
  staffId : fields.Optional "staffId" conv.staffId
  title : fields.Optional "title" conv.title
  createdAt : fields.OptionalTime fromisoformat "createdAt" conv.createdAt
  updatedAt : fields.OptionalTime fromisoformat "updatedAt" conv.updatedAt

/-- The conversation of a message is the one that was asked for, unless it is named. -/
structure MessageSchema (convId : String) (message : Message String) (fields : Properties) : Prop where
  id : fields.Text "id" message.id
  authorKind : fields.Text "authorKind" (authorKindName message.authorKind)
  text : fields.Text "text" message.text
  sentAt : ∃ time, message.sentAt = some time ∧ fields.Time fromisoformat "sentAt" time
  authorId : fields.Optional "authorId" message.authorId
  conversationId : ∃ named, message.conversationId = some named ∧
    fields.Default "conversationId" (.str convId) (.str named)
  hasAttachment : fields.Default "hasAttachment" (.bool false) (.bool message.hasAttachment)

inductive KbType where
  | faq
  | doc
  deriving DecidableEq

inductive Visibility where
  | everyone
  | internal
  deriving DecidableEq

def KbType.name : KbType → String
  | .faq => "faq"
  | .doc => "doc"

def Visibility.name : Visibility → String
  | .everyone => "public"
  | .internal => "internal"

/-- An item as a server has it, its date as it is written. -/
structure KbEntry where
  id : String
  type : KbType
  visibility : Visibility
  title : String := ""
  body : String := ""
  url : Option String := none
  updatedAt : String
  deleted : Bool := false
  deriving DecidableEq

structure KbItemSchema (entry : KbEntry) (fields : Properties) : Prop where
  id : fields.Text "id" entry.id
  type : fields.Text "type" entry.type.name
  visibility : fields.Text "visibility" entry.visibility.name
  title : fields.Default "title" (.str "") (.str entry.title)
  body : fields.Default "body" (.str "") (.str entry.body)
  url : fields.Optional "url" entry.url
  updatedAt : fields.Date "updatedAt" entry.updatedAt
  deleted : fields.Default "deleted" (.bool false) (.bool entry.deleted)

structure OrderSchema (order : OrderSummary String) (fields : Properties) : Prop where
  id : fields.Text "id" order.id
  status : fields.Text "status" order.status
  createdAtJalali : fields.Text "createdAtJalali" order.createdAtJalali
  lastEvent : fields.Optional "lastEvent" order.lastEvent
  lastEventAtJalali : fields.Optional "lastEventAtJalali" order.lastEventAtJalali

/-- What the client's models make of an item. -/
def KbEntry.item (entry : KbEntry) : KbItem Json where
  id := .str entry.id
  type := .str entry.type.name
  visibility := .str entry.visibility.name
  title := .str entry.title
  body := .str entry.body
  url := entry.url.map .str
  updatedAt := fromisoformat (withOffset entry.updatedAt)
  deleted := entry.deleted

theorem subscript_text {text : String} (found : fields.Text key text) :
    subscript (.obj fields) key = .ok (.str text) := by
  have here : fields.lookup key = some (.str text) := found
  simp only [subscript, here]

theorem get_text {text : String} (default : Json) (found : fields.Text key text) :
    get (.obj fields) key default = .ok (.str text) := by
  have here : fields.lookup key = some (.str text) := found
  simp only [get, here, Option.getD_some]

theorem get_optional {value : Option String} (written : fields.Optional key value) :
    ∃ found, get (.obj fields) key .null = .ok found ∧ optional found = value.map .str := by
  cases written with
  | absent none => exact ⟨.null, by simp only [get, none, Option.getD_none], rfl⟩
  | null there => exact ⟨.null, by simp only [get, there, Option.getD_some], rfl⟩
  | text there => exact ⟨_, get_text .null there, rfl⟩

theorem get_default {default value : Json} (written : fields.Default key default value) :
    get (.obj fields) key default = .ok value := by
  rcases written with found | ⟨absent, rfl⟩
  · simp only [get, found, Option.getD_some]
  · simp only [get, absent, Option.getD_none]

/-- What is made of the text of a date. -/
def readDate (text : String) : Except Error (Option DateTime) :=
  match fromisoformat (withOffset text) with
  | some time => .ok (some time)
  | none => .error .valueError

theorem parseDt_text {text : String} (some : text ≠ "") :
    parseDt fromisoformat (.str text) = readDate fromisoformat text := by
  have there : Json.truthy (.str text) = true := by simpa [Json.truthy] using some
  rw [parseDt, there, if_neg (by simp)]
  rfl

theorem get_time {time : DateTime} (written : fields.Time fromisoformat key time) :
    ∃ found, get (.obj fields) key .null = .ok found ∧ parseDt fromisoformat found = .ok (some time) := by
  obtain ⟨text, date, read⟩ := written
  exact ⟨_, get_text .null date.found, by rw [parseDt_text fromisoformat date.some, readDate, read]⟩

theorem get_optionalTime {value : Option DateTime} (written : fields.OptionalTime fromisoformat key value) :
    ∃ found, get (.obj fields) key .null = .ok found ∧ parseDt fromisoformat found = .ok value := by
  cases value with
  | none =>
      have absent : fields.lookup key = none := written
      exact ⟨.null, by simp only [get, absent, Option.getD_none], rfl⟩
  | some time => exact get_time fromisoformat written

theorem conversationStatus_name (status : ConversationStatus) :
    conversationStatus (.str (statusName status)) = .ok status := by
  cases status <;> rfl

theorem handledBy_name (owner : HandledBy) : handledBy (.str (handledByName owner)) = .ok owner := by
  cases owner <;> rfl

theorem authorKind_name (kind : AuthorKind) : authorKind (.str (authorKindName kind)) = .ok kind := by
  cases kind <;> rfl

theorem conversationFromJson_written {conv : Conversation String}
    (written : ConversationSchema fromisoformat conv fields) :
    conversationFromJson fromisoformat (.obj fields) = .ok (conv.map .str) := by
  obtain ⟨departmentId, getDepartment, department⟩ := get_optional written.departmentId
  obtain ⟨staffId, getStaff, staff⟩ := get_optional written.staffId
  obtain ⟨title, getTitle, titled⟩ := get_optional written.title
  obtain ⟨created, getCreated, createdAt⟩ := get_optionalTime fromisoformat written.createdAt
  obtain ⟨updated, getUpdated, updatedAt⟩ := get_optionalTime fromisoformat written.updatedAt
  simp only [conversationFromJson, subscript_text written.id, subscript_text written.userId,
    get_text _ written.status, get_text _ written.handledBy, conversationStatus_name, handledBy_name, getDepartment,
    getStaff, getTitle, getCreated, getUpdated, createdAt, updatedAt, bind, Except.bind, department, staff, titled]
  rfl

theorem messageFromJson_written {convId : String} {message : Message String}
    (written : MessageSchema fromisoformat convId message fields) :
    messageFromJson fromisoformat convId (.obj fields) = .ok (message.map .str) := by
  obtain ⟨time, sent, timed⟩ := written.sentAt
  obtain ⟨date, getDate, sentAt⟩ := get_time fromisoformat timed
  obtain ⟨author, getAuthor, authorId⟩ := get_optional written.authorId
  obtain ⟨named, isNamed, conversation⟩ := written.conversationId
  simp only [messageFromJson, subscript_text written.id, subscript_text written.authorKind, authorKind_name,
    subscript_text written.text, getDate, sentAt, getAuthor, authorId, get_default conversation,
    get_default written.hasAttachment, bind, Except.bind]
  simp only [Message.map, sent, isNamed]
  rfl

theorem kbItemFromJson_written {entry : KbEntry} (written : KbItemSchema entry fields) :
    kbItemFromJson fromisoformat (.obj fields) =
      (readDate fromisoformat entry.updatedAt).map fun _ => entry.item fromisoformat := by
  obtain ⟨address, getUrl, url⟩ := get_optional written.url
  simp only [kbItemFromJson, subscript_text written.id, subscript_text written.type, subscript_text written.visibility,
    get_default written.title, get_default written.body, getUrl, get_text _ written.updatedAt.found,
    parseDt_text fromisoformat written.updatedAt.some, get_default written.deleted, bind, Except.bind, url]
  unfold readDate
  cases read : fromisoformat (withOffset entry.updatedAt) with
  | none => rfl
  | some time => simp only [KbEntry.item, read]; rfl

theorem orderFromJson_written {order : OrderSummary String} (written : OrderSchema order fields) :
    orderFromJson (.obj fields) = .ok (order.map .str) := by
  obtain ⟨event, getEvent, lastEvent⟩ := get_optional written.lastEvent
  obtain ⟨date, getDate, lastEventAt⟩ := get_optional written.lastEventAtJalali
  simp only [orderFromJson, subscript_text written.id, subscript_text written.status,
    subscript_text written.createdAtJalali, getEvent, getDate, lastEvent, lastEventAt, bind, Except.bind]
  rfl

end Nipoto.Connectors
