import Nipoto.General.Dict
import Nipoto.General.Json

/-! # Errors of a request

app/core/errors.py and app/core/middleware.py. What a handler raises becomes a
problem with the request id that the middleware has chosen. The web framework
looks up the handler of an exception by its class. An exception that no class of
the service covers leaves the middleware before it is answered, and so does an
error whose problem cannot be written as JSON.
-/

namespace Nipoto.Requests

abbrev Body := List (String × Json)

/-- Header names are in lower case. -/
structure Inbound where
  method : String
  path : String
  headers : List (String × String)

structure Outbound where
  status : Int
  mediaType : String
  headers : List (String × String) := []
  body : Json

def contentType : String := "application/problem+json"

/-- `DEFAULT_CODES`. -/
def defaultCodes : List (Int × String) :=
  [(400, "bad_request"), (401, "unauthenticated"), (403, "forbidden"), (404, "not_found"),
    (405, "method_not_allowed"), (409, "conflict"), (422, "invalid_request"), (429, "rate_limited"),
    (500, "internal_error"), (502, "upstream_unavailable"), (503, "unavailable"), (504, "upstream_timeout")]

/-- The class attributes of an `AppError`. -/
structure ErrorClass where
  statusCode : Int := 500
  code : String := "internal_error"
  title : String := "Internal Server Error"

structure AppError where
  statusCode : Int
  code : String
  title : String
  detail : Option String
  extra : Body
  distinct : (extra.map Prod.fst).Nodup

/-- `AppError.__init__`. -/
def ErrorClass.error (cls : ErrorClass) (detail : Option String := none) (code : Option String := none)
    (statusCode : Option Int := none) (extra : Body := []) (distinct : (extra.map Prod.fst).Nodup := by simp) :
    AppError where
  statusCode := statusCode.getD cls.statusCode
  code := code.getD cls.code
  title := cls.title
  detail := detail
  extra := extra
  distinct := distinct

/-- One part of the place of a validation error. -/
inductive Part where
  | field (name : String)
  | index (place : Int)

/-- `str(part)`. -/
def Part.str : Part → String
  | .field name => name
  | .index place => toString place

structure Issue where
  loc : List Part
  msg : String
  type : String
  /-- The offending input, which may hold customer text. -/
  input : Json

/-- What a handler may raise, by the classes that have a handler. -/
inductive Raised where
  | app (error : AppError)
  | http (statusCode : Int) (detail : Json)
  | validation (issues : List Issue)
  | unhandled (exc : String)

/-- `str.title` on letters of the ASCII range. -/
def titleFrom (inWord : Bool) : List Char → List Char
  | [] => []
  | c :: rest =>
      if c.isAlpha then (if inWord then c.toLower else c.toUpper) :: titleFrom true rest
      else c :: titleFrom false rest

/-- `code.replace("_", " ").title()`. -/
def titled (code : String) : String :=
  .ofList (titleFrom false (code.toList.map fun c => if c = '_' then ' ' else c))

/-- A text that is not empty. -/
def filled : Option String → Option String
  | some "" => none
  | text => text

def putText (key : String) (text : Option String) (body : Body) : Body :=
  match filled text with
  | some text => Dict.put key (.str text) body
  | none => body

/-- The body of `problem_response`. -/
def problemBody (path : String) (requestId : Option String) (statusCode : Int) (code : String)
    (title detail : Option String) (extra : Body) : Body :=
  let body : Body :=
    [("type", .str "about:blank"), ("title", .str ((filled title).getD (titled code))), ("status", .int statusCode),
      ("code", .str code), ("instance", .str path)]
  let body := putText "detail" detail body
  let body := putText "request_id" requestId body
  Dict.update body extra

/-- `JSONResponse`, which raises `ValueError` for a number that is not finite. -/
def jsonResponse (statusCode : Int) (body : Body) : Except String Outbound :=
  if Json.finiteFields body then .ok { status := statusCode, mediaType := contentType, body := .obj body }
  else .error "ValueError"

/-- `problem_response`. -/
def problemResponse (path : String) (requestId : Option String) (statusCode : Int) (code : String)
    (title detail : Option String := none) (extra : Body := []) : Except String Outbound :=
  jsonResponse statusCode (problemBody path requestId statusCode code title detail extra)

/-- `_safe_errors`. -/
def safeErrors (issues : List Issue) : Json :=
  .arr (issues.map fun issue =>
    .obj [("loc", .arr (issue.loc.map fun part => .str part.str)), ("msg", .str issue.msg), ("type", .str issue.type)])

namespace Raised

def statusCode : Raised → Int
  | .app error => error.statusCode
  | .http statusCode _ => statusCode
  | .validation _ => 422
  | .unhandled _ => 500

def code : Raised → String
  | .app error => error.code
  | .http statusCode _ => (defaultCodes.lookup statusCode).getD "http_error"
  | .validation _ => "invalid_request"
  | .unhandled _ => "internal_error"

def title : Raised → Option String
  | .app error => some error.title
  | _ => none

def detail : Raised → Option String
  | .app error => error.detail
  | .http _ (.str detail) => some detail
  | .http _ _ => none
  | .validation _ => some "Request validation failed."
  | .unhandled _ => some "An unexpected error occurred."

def extra : Raised → Body
  | .app error => error.extra
  | .validation issues => [("errors", safeErrors issues)]
  | _ => []

/-- The handler of the class in `install_error_handlers`, with the exception that it
    raises itself. -/
def respond (path : String) (requestId : Option String) (raised : Raised) : Except String Outbound :=
  problemResponse path requestId raised.statusCode raised.code raised.title raised.detail raised.extra

end Raised

/-- `_unhandled`. -/
def unexpected (path : String) (requestId : Option String) : Outbound where
  status := 500
  mediaType := contentType
  body := .obj (problemBody path requestId 500 "internal_error" none (some "An unexpected error occurred.") [])

def requestIdHeader : String := "x-request-id"

/-- `request.headers.get(REQUEST_ID_HEADER) or new_request_id()`. -/
def requestIdOf (new : String) (request : Inbound) : String :=
  (filled (request.headers.lookup requestIdHeader)).getD new

def Outbound.withId (response : Outbound) (requestId : String) : Outbound :=
  { response with headers := Dict.put requestIdHeader requestId response.headers }

/-- `dispatch`. The handlers of classes run inside it. An exception that has none, or that
    a handler raises, leaves it and is answered outside. -/
def serve (new : String) (handler : Inbound → String → Except Raised Outbound) (request : Inbound) : Outbound :=
  let requestId := requestIdOf new request
  match handler request requestId with
  | .ok response => response.withId requestId
  | .error (.unhandled _) => unexpected request.path requestId
  | .error raised =>
      match raised.respond request.path requestId with
      | .ok response => response.withId requestId
      | .error _ => unexpected request.path requestId

/-- The exception that is answered. -/
def Raised.answered : Raised → Raised
  | .app error => if Json.finiteFields error.extra then .app error else .unhandled "ValueError"
  | raised => raised

/-- The fields that a problem has of its own; it has no `detail` without a text. -/
def standard (path requestId : String) (raised : Raised) : List (String × Option Json) :=
  [("type", some (.str "about:blank")), ("title", some (.str ((filled raised.title).getD (titled raised.code)))),
    ("status", some (.int raised.statusCode)), ("code", some (.str raised.code)), ("instance", some (.str path)),
    ("detail", (filled raised.detail).map .str), ("request_id", some (.str requestId))]

/-- A problem whose standard fields say what was raised. -/
structure IsProblem (path requestId : String) (raised : Raised) (response : Outbound) : Prop where
  status : response.status = raised.statusCode
  mediaType : response.mediaType = contentType
  fields : ∃ body, response.body = .obj body ∧ ∀ e ∈ standard path requestId raised, body.lookup e.1 = e.2

/-- The extra fields of an error leave the standard ones alone. -/
def LeavesStandard (path requestId : String) (raised : Raised) : Prop :=
  ∀ e ∈ standard path requestId raised, ∀ value, raised.extra.lookup e.1 = some value → some value = e.2

theorem extra_distinct (raised : Raised) : (raised.extra.map Prod.fst).Nodup := by
  cases raised with
  | app error => exact error.distinct
  | http statusCode detail => exact List.nodup_nil
  | validation issues => exact List.nodup_singleton _
  | unhandled exc => exact List.nodup_nil

theorem lookup_putText {key : String} {text : Option String} {body : Body} {j : String} (other : j ≠ key) :
    (putText key text body).lookup j = body.lookup j := by
  unfold putText
  split
  · rw [Dict.lookup_put, if_neg other]
  · rfl

theorem lookup_putText_here {key : String} {text : Option String} {body : Body} (absent : body.lookup key = none) :
    (putText key text body).lookup key = (filled text).map .str := by
  unfold putText
  split
  · rename_i found
    rw [Dict.lookup_put, if_pos rfl, found]
    rfl
  · rename_i empty
    rw [absent, empty]
    rfl

theorem filled_of_ne {text : String} (nonempty : text ≠ "") : filled (some text) = some text := by
  unfold filled
  split
  · rename_i same
    exact absurd (Option.some.inj same) nonempty
  · rfl

/-- The body before the extra fields are put in. -/
def plainBody (path requestId : String) (raised : Raised) : Body :=
  problemBody path (some requestId) raised.statusCode raised.code raised.title raised.detail []

theorem problemBody_extra (path requestId : String) (raised : Raised) :
    problemBody path (some requestId) raised.statusCode raised.code raised.title raised.detail raised.extra =
      Dict.update (plainBody path requestId raised) raised.extra := rfl

theorem lookup_plainBody {path requestId : String} (nonempty : requestId ≠ "") (raised : Raised) :
    ∀ e ∈ standard path requestId raised, (plainBody path requestId raised).lookup e.1 = e.2 := by
  have first : ∀ j, j ≠ "request_id" → j ≠ "detail" → (plainBody path requestId raised).lookup j =
      List.lookup j [("type", .str "about:blank"), ("title", .str ((filled raised.title).getD (titled raised.code))),
        ("status", .int raised.statusCode), ("code", .str raised.code), ("instance", .str path)] := by
    intro j notId notDetail
    exact (lookup_putText notId).trans (lookup_putText notDetail)
  have detail : (plainBody path requestId raised).lookup "detail" = (filled raised.detail).map .str :=
    (lookup_putText (by decide)).trans (lookup_putText_here rfl)
  have last : (plainBody path requestId raised).lookup "request_id" = some (.str requestId) := by
    have absent := (@lookup_putText "detail" raised.detail _ "request_id" (by decide)).trans
      (show List.lookup "request_id" [("type", .str "about:blank"),
        ("title", .str ((filled raised.title).getD (titled raised.code))), ("status", .int raised.statusCode),
        ("code", .str raised.code), ("instance", Json.str path)] = none from rfl)
    exact (lookup_putText_here absent).trans (by rw [filled_of_ne nonempty]; rfl)
  simp only [standard, List.forall_mem_cons, List.not_mem_nil, false_imp_iff, implies_true, and_true]
  refine ⟨?_, ?_, ?_, ?_, ?_, detail, last⟩
  all_goals
    rw [first _ (by decide) (by decide)]
    rfl

theorem finite_putText {key : String} {text : Option String} {body : Body}
    (finite : ∀ e ∈ body, e.2.finite = true) : ∀ e ∈ putText key text body, e.2.finite = true := by
  intro e member
  unfold putText at member
  split at member
  · cases Dict.mem_put member with
    | inl here => rw [here]; rfl
    | inr old => exact finite e old
  · exact finite e member

theorem finite_plainBody (path requestId : String) (raised : Raised) :
    ∀ e ∈ plainBody path requestId raised, e.2.finite = true :=
  finite_putText (finite_putText (by simp [Json.finite]))

/-- Only the extra fields can keep a problem from being written. -/
theorem finite_problemBody (path requestId : String) (raised : Raised) :
    Json.finiteFields (Dict.update (plainBody path requestId raised) raised.extra) =
      Json.finiteFields raised.extra := by
  rw [Bool.eq_iff_iff, Json.finiteFields_iff, Json.finiteFields_iff]
  constructor
  · intro all e member
    have found := (Dict.mem_iff_lookup (extra_distinct raised)).mp member
    refine all e (Dict.mem_of_lookup ?_)
    rw [Dict.lookup_update (extra_distinct raised), found, Option.some_or]
  · intro all e member
    cases Dict.mem_update member with
    | inl inExtra => exact all e inExtra
    | inr plain => exact finite_plainBody path requestId raised e plain

theorem respond_eq (path requestId : String) (raised : Raised) :
    raised.respond path (some requestId) =
      if Json.finiteFields raised.extra then
        .ok {
          status := raised.statusCode, mediaType := contentType
          body := .obj (Dict.update (plainBody path requestId raised) raised.extra) }
      else .error "ValueError" := by
  rw [Raised.respond, problemResponse, jsonResponse, problemBody_extra, finite_problemBody]

theorem respond_finite (path requestId : String) {raised : Raised} (finite : Json.finiteFields raised.extra = true) :
    ∃ response, raised.respond path (some requestId) = .ok response := by
  rw [respond_eq, if_pos finite]
  exact ⟨_, rfl⟩

/-- The answer to an exception without a handler is what its handler would answer. -/
theorem respond_unhandled (path requestId exc : String) :
    (Raised.unhandled exc).respond path (some requestId) = .ok (unexpected path (some requestId)) := by
  have finite : Json.finiteFields (Raised.unhandled exc).extra = true := rfl
  rw [respond_eq, if_pos finite]
  rfl

theorem finite_safeErrors (issues : List Issue) : (safeErrors issues).finite = true := by
  have strings : ∀ parts : List Part, Json.finiteItems (parts.map fun part => .str part.str) = true := by
    intro parts
    rw [Json.finiteItems_iff, List.forall_mem_map]
    exact fun _ _ => rfl
  rw [safeErrors, Json.finite, Json.finiteItems_iff, List.forall_mem_map]
  intro issue _
  simp [Json.finite, Json.finiteFields, strings]

/-- What is answered, with the exception that has been answered. -/
theorem serve_raised {new : String} {handler : Inbound → String → Except Raised Outbound} {request : Inbound}
    {raised : Raised} (failed : handler request (requestIdOf new request) = .error raised) :
    ∃ response, raised.answered.respond request.path (requestIdOf new request) = .ok response ∧
      serve new handler request =
        match raised.answered with
        | .unhandled _ => response
        | _ => response.withId (requestIdOf new request) := by
  cases raised with
  | unhandled exc => exact ⟨_, respond_unhandled _ _ exc, by simp only [serve, failed, Raised.answered]⟩
  | http statusCode detail =>
      have finite : Json.finiteFields (Raised.http statusCode detail).extra = true := rfl
      obtain ⟨response, ok⟩ := respond_finite request.path (requestIdOf new request) finite
      exact ⟨response, ok, by simp only [serve, failed, ok, Raised.answered]⟩
  | validation issues =>
      have finite : Json.finiteFields (Raised.validation issues).extra = true := by
        simp [Raised.extra, Json.finiteFields, finite_safeErrors]
      obtain ⟨response, ok⟩ := respond_finite request.path (requestIdOf new request) finite
      exact ⟨response, ok, by simp only [serve, failed, ok, Raised.answered]⟩
  | app error =>
      by_cases finite : Json.finiteFields error.extra = true
      · have own : (Raised.app error).answered = .app error := if_pos finite
        have same : Json.finiteFields (Raised.app error).extra = true := finite
        obtain ⟨response, ok⟩ := respond_finite request.path (requestIdOf new request) same
        rw [own]
        exact ⟨response, ok, by simp only [serve, failed, ok]⟩
      · -- the handler of the error raises in turn
        have other : (Raised.app error).answered = .unhandled "ValueError" := if_neg finite
        have failing : (Raised.app error).respond request.path (requestIdOf new request) = .error "ValueError" :=
          (respond_eq _ _ _).trans (if_neg finite)
        rw [other]
        exact ⟨_, respond_unhandled _ _ "ValueError", by simp only [serve, failed, failing]⟩

theorem respond_isProblem_iff {path requestId : String} (nonempty : requestId ≠ "") {raised : Raised}
    {response : Outbound} (ok : raised.respond path requestId = .ok response) :
    IsProblem path requestId raised response ↔ LeavesStandard path requestId raised := by
  have updated := @Dict.lookup_update _ _ _ (plainBody path requestId raised) _ (extra_distinct raised)
  rw [respond_eq] at ok
  split at ok
  · obtain rfl := Except.ok.inj ok
    constructor
    · rintro ⟨-, -, body, same, fields⟩ e member value found
      obtain rfl := Json.obj.inj same
      have here := fields e member
      rwa [updated, found, Option.some_or] at here
    · intro leaves
      refine ⟨rfl, rfl, _, rfl, fun e member => ?_⟩
      rw [updated]
      cases found : raised.extra.lookup e.1 with
      | none => exact lookup_plainBody nonempty raised e member
      | some value => exact leaves e member value found
  · cases ok

theorem requestIdOf_ne {new : String} (named : new ≠ "") (request : Inbound) : requestIdOf new request ≠ "" := by
  unfold requestIdOf filled
  split
  · exact named
  · rename_i other
    cases header : request.headers.lookup requestIdHeader with
    | none => exact named
    | some text =>
        rintro rfl
        exact other header

/-- A caller can follow a request: the answer has the id in its header unless an
    exception left the middleware, and a problem says what was raised unless the extra
    fields of the error hide it. -/
structure Correlated (new : String) (handler : Inbound → String → Except Raised Outbound) (request : Inbound) :
    Prop where
  header : (serve new handler request).headers.lookup requestIdHeader = some (requestIdOf new request) ↔
    ∀ raised, handler request (requestIdOf new request) = .error raised → ∀ exc, raised.answered ≠ .unhandled exc
  answered : ∀ response, handler request (requestIdOf new request) = .ok response →
    (serve new handler request).status = response.status ∧ (serve new handler request).body = response.body
  problem : ∀ raised, handler request (requestIdOf new request) = .error raised →
    (IsProblem request.path (requestIdOf new request) raised.answered (serve new handler request) ↔
      LeavesStandard request.path (requestIdOf new request) raised.answered)

theorem withId_isProblem {path requestId : String} {raised : Raised} {response : Outbound} :
    IsProblem path requestId raised (response.withId requestId) ↔ IsProblem path requestId raised response :=
  ⟨fun same => ⟨same.status, same.mediaType, same.fields⟩, fun same => ⟨same.status, same.mediaType, same.fields⟩⟩

theorem withId_header (response : Outbound) (requestId : String) :
    (response.withId requestId).headers.lookup requestIdHeader = some requestId := by
  rw [Outbound.withId, Dict.lookup_put, if_pos rfl]

theorem serve_isProblem {new : String} (named : new ≠ "") {handler : Inbound → String → Except Raised Outbound}
    {request : Inbound} {raised : Raised} (failed : handler request (requestIdOf new request) = .error raised) :
    IsProblem request.path (requestIdOf new request) raised.answered (serve new handler request) ↔
      LeavesStandard request.path (requestIdOf new request) raised.answered := by
  obtain ⟨response, ok, same⟩ := serve_raised failed
  rw [← respond_isProblem_iff (requestIdOf_ne named request) ok, same]
  split
  · exact Iff.rfl
  · exact withId_isProblem

theorem unhandled_header {path requestId exc : String} {response : Outbound}
    (ok : (Raised.unhandled exc).respond path (some requestId) = .ok response) : response.headers = [] := by
  rw [respond_unhandled] at ok
  obtain rfl := Except.ok.inj ok
  rfl

theorem requests_correlated {new : String} (named : new ≠ "")
    (handler : Inbound → String → Except Raised Outbound) (request : Inbound) : Correlated new handler request := by
  cases outcome : handler request (requestIdOf new request) with
  | ok response =>
      have same : serve new handler request = response.withId (requestIdOf new request) := by
        simp only [serve, outcome]
      constructor
      · rw [same, withId_header, outcome]
        simp
      · rintro other found
        obtain rfl := Except.ok.inj (outcome.symm.trans found)
        rw [same]
        exact ⟨rfl, rfl⟩
      · intro raised found
        rw [outcome] at found
        cases found
  | error raised =>
      refine { header := ?_, answered := ?_, problem := fun other found => serve_isProblem named found }
      · obtain ⟨response, ok, same⟩ := serve_raised outcome
        have only : ∀ {P : Raised → Prop}, (∀ other, handler request (requestIdOf new request) = .error other → P other) ↔
            P raised := by
          intro P
          rw [outcome]
          simp
        rw [only, same]
        cases answered : raised.answered with
        | unhandled exc =>
            rw [answered] at ok
            simp [unhandled_header ok]
        | _ => simp [withId_header]
      · intro response found
        rw [outcome] at found
        cases found

/-- A request without an id whose handler finds nothing. -/
theorem requests_correlated_notFound :
    Correlated "req_0123456789ab" (fun _ _ => .error (.http 404 (.str "Not Found")))
      { method := "GET", path := "/v1/nope", headers := [] } :=
  requests_correlated (by decide) _ _

end Nipoto.Requests
