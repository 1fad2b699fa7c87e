import Nipoto.Connectors.Mapping

/-! # The HTTP connector

`HttpMainBackend` of app/connectors/http.py. What the backend answers to the
attempts of a call is a sequence; a call returns or raises and has sent some
requests. The HTTP library is outside: it answers or reports a transport error.
-/

namespace Nipoto.Connectors

/-- The initial attempt plus one retry. -/
def getRetries : Nat := 2

inductive Method where
  | get
  | post
  deriving DecidableEq, Repr

structure Request where
  method : Method
  path : String
  headers : List (String × String) := []
  params : List (String × Json) := []
  json : Option Json := none

/-- `body` is what `response.json()` returns, or `none` if it raises `ValueError`. -/
structure Response where
  status : Int
  body : Option Json

inductive Answer where
  | transportError
  | response (response : Response)

/-- What a call returns or raises, and the requests it has sent. -/
abbrev Exchange (α : Type) := Except Error α × List Request

/-- The attempts that are left, after `attempt` others. -/
def attempts (answers : Nat → Answer) (request : Request) (convId : Option String) :
    (left attempt : Nat) → Exchange Response
  | 0, _ => (.error (.backendUnavailable .unreachable), [])
  | left + 1, attempt =>
      let retry := attempts answers request convId left (attempt + 1)
      match answers attempt with
      | .transportError =>
          if left ≠ 0 then (retry.1, request :: retry.2)
          else (.error (.backendUnavailable .unreachable), [request])
      | .response response =>
          if response.status = 404 ∨ response.status = 403 then
            (.error (.conversationNotFound convId), [request])
          else if 500 ≤ response.status ∧ left ≠ 0 then (retry.1, request :: retry.2)
          else if 400 ≤ response.status then
            (.error (.backendUnavailable (.returned response.status)), [request])
          else (.ok response, [request])

/-- `_request`. -/
def send (answers : Nat → Answer) (request : Request) (convId : Option String) : Exchange Response :=
  attempts answers request convId (if request.method = .get then getRetries else 1) 0

/-- `_json`. -/
def jsonOf (response : Response) : Except Error Json :=
  match response.body with
  | some body => .ok body
  | none => .error (.backendUnavailable .malformed)

/-- Go on with the response of an exchange. -/
def Exchange.andThen {α : Type} (x : Exchange Response) (next : Response → Except Error α) : Exchange α :=
  (x.1 >>= next, x.2)

/-- `body.get("items", body) if isinstance(body, dict) else body`. -/
def itemsOf (body : Json) : Json :=
  match body with
  | .obj fields => (fields.lookup "items").getD body
  | _ => body

/-- What `for item in value` goes through. -/
def iterate : Json → Except Error (List Json)
  | .arr items => .ok items
  | .str text => .ok (text.toList.map fun c => .str c.toString)
  | .obj fields => .ok (fields.map fun field => .str field.1)
  | _ => .error .typeError

/-- `[convert(item) for item in items]` over the items of a body. -/
def listing {α : Type} (convert : Json → Except Error α) (body : Json) : Except Error (List α) := do
  (← iterate (itemsOf body)).mapM convert

/-- The connector. The request id comes from the context, the two functions from the
    standard library. -/
structure HttpMainBackend where
  requestId : Option String
  fromisoformat : String → Option DateTime
  isoformat : DateTime → String

inductive HttpCall where
  | getConversation (convId : String) (actor : Actor)
  | getMessages (convId : String) (actor : Actor) (limit : Int)
  | listKbItems (updatedSince : Option DateTime)
  | getRecentOrders (actor : Actor) (limit : Int)
  | postAssistantMessage (convId text idemKey : String) (metadata : List (String × Json))
  | handoff (convId reason : String)

inductive HttpReply where
  | conversation (conversation : Conversation Json)
  | messages (messages : List (Message Json))
  | kbItems (items : List (KbItem Json))
  | orders (orders : List (OrderSummary Json))
  | posted (messageId : Json)
  | done

def roleName : Role → String
  | .staff => "staff"
  | .user => "user"
  | .guest => "guest"
  | .service => "service"
  | .admin => "admin"

namespace HttpMainBackend

variable (backend : HttpMainBackend)

def onBehalfOf (actor : Actor) : List (String × String) :=
  [("X-On-Behalf-Of-Sub", actor.userId), ("X-On-Behalf-Of-Role", roleName actor.role)] ++
    match backend.requestId with
    | some requestId => if requestId ≠ "" then [("X-Request-Id", requestId)] else []
    | none => []

/-- The request of a call. -/
def requestOf : HttpCall → Request
  | .getConversation convId actor =>
      { method := .get, path := "/conversations/" ++ convId, headers := backend.onBehalfOf actor }
  | .getMessages convId actor limit =>
      { method := .get, path := "/conversations/" ++ convId ++ "/messages"
        headers := backend.onBehalfOf actor, params := [("limit", .int limit)] }
  | .listKbItems updatedSince =>
      { method := .get, path := "/kb/items"
        params := match updatedSince with
          | some since => [("updatedSince", .str (backend.isoformat since))]
          | none => [] }
  | .getRecentOrders actor limit =>
      { method := .get, path := "/me/orders", headers := backend.onBehalfOf actor
        params := [("limit", .int limit)] }
  | .postAssistantMessage convId text idemKey metadata =>
      { method := .post, path := "/conversations/" ++ convId ++ "/messages"
        headers := [("Idempotency-Key", idemKey)]
        json := some (.obj [("text", .str text), ("authorKind", .str "assistant"), ("meta", .obj metadata)]) }
  | .handoff convId reason =>
      { method := .post, path := "/conversations/" ++ convId ++ "/handoff"
        json := some (.obj [("reason", .str reason)]) }

/-- The conversation that a call is about, for its error. -/
def convIdOf : HttpCall → Option String
  | .getConversation convId _ => some convId
  | .getMessages convId _ _ => some convId
  | .listKbItems _ => none
  | .getRecentOrders _ _ => none
  | .postAssistantMessage convId _ _ _ => some convId
  | .handoff convId _ => some convId

def getConversation (answers : Nat → Answer) (convId : String) (actor : Actor) : Exchange (Conversation Json) :=
  let call := HttpCall.getConversation convId actor
  (send answers (backend.requestOf call) (convIdOf call)).andThen fun response => do
    conversationFromJson backend.fromisoformat (← jsonOf response)

def getMessages (answers : Nat → Answer) (convId : String) (actor : Actor) (limit : Int) :
    Exchange (List (Message Json)) :=
  let call := HttpCall.getMessages convId actor limit
  (send answers (backend.requestOf call) (convIdOf call)).andThen fun response => do
    listing (messageFromJson backend.fromisoformat convId) (← jsonOf response)

def listKbItems (answers : Nat → Answer) (updatedSince : Option DateTime) : Exchange (List (KbItem Json)) :=
  let call := HttpCall.listKbItems updatedSince
  (send answers (backend.requestOf call) (convIdOf call)).andThen fun response => do
    listing (kbItemFromJson backend.fromisoformat) (← jsonOf response)

def getRecentOrders (answers : Nat → Answer) (actor : Actor) (limit : Int) :
    Exchange (List (OrderSummary Json)) :=
  let call := HttpCall.getRecentOrders actor limit
  (send answers (backend.requestOf call) (convIdOf call)).andThen fun response => do
    listing orderFromJson (← jsonOf response)

def postAssistantMessage (answers : Nat → Answer) (convId text idemKey : String)
    (metadata : List (String × Json)) : Exchange Json :=
  let call := HttpCall.postAssistantMessage convId text idemKey metadata
  (send answers (backend.requestOf call) (convIdOf call)).andThen fun response => do
    subscript (← jsonOf response) "id"

def handoff (answers : Nat → Answer) (convId reason : String) : Exchange Unit :=
  let call := HttpCall.handoff convId reason
  (send answers (backend.requestOf call) (convIdOf call)).andThen fun _ => .ok ()

/-- Any call, against the answers to its attempts. -/
def perform (answers : Nat → Answer) : HttpCall → Except Error HttpReply
  | .getConversation convId actor => .conversation <$> (backend.getConversation answers convId actor).1
  | .getMessages convId actor limit => .messages <$> (backend.getMessages answers convId actor limit).1
  | .listKbItems updatedSince => .kbItems <$> (backend.listKbItems answers updatedSince).1
  | .getRecentOrders actor limit => .orders <$> (backend.getRecentOrders answers actor limit).1
  | .postAssistantMessage convId text idemKey metadata =>
      .posted <$> (backend.postAssistantMessage answers convId text idemKey metadata).1
  | .handoff convId reason => (fun _ => .done) <$> (backend.handoff answers convId reason).1

end HttpMainBackend

end Nipoto.Connectors
