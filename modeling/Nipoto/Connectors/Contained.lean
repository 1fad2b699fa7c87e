import Nipoto.Connectors.Http
import Nipoto.General.Fallible

/-! # Which errors leave the HTTP connector

`_request` and `_json` raise the connector's own two errors only. The mapping
raises the language's errors only, and does so on every body that is not well
formed for its call.
-/

namespace Nipoto.Connectors

open Fallible

/-- The errors that callers expect. -/
def Expected : Error → Prop
  | .conversationNotFound _ => True
  | .backendUnavailable _ => True
  | _ => False

def Present (fields : List (String × Json)) (key : String) : Prop := (fields.lookup key).isSome

def IfPresent (P : Json → Prop) (fields : List (String × Json)) (key : String) : Prop :=
  ∀ value, fields.lookup key = some value → P value

def OneOf (names : List String) (value : Json) : Prop := ∃ name ∈ names, value = .str name

variable (fromisoformat : String → Option DateTime)

/-- Nothing, or a date as text. -/
def DateLike (value : Json) : Prop :=
  value.truthy = false ∨ ∃ text, value = .str text ∧ (fromisoformat (withOffset text)).isSome

structure ConversationFields (fields : List (String × Json)) : Prop where
  id : Present fields "id"
  userId : Present fields "userId"
  status : IfPresent (OneOf ["queued", "opened", "closed"]) fields "status"
  handledBy : IfPresent (OneOf ["assistant", "staff"]) fields "handledBy"
  createdAt : IfPresent (DateLike fromisoformat) fields "createdAt"
  updatedAt : IfPresent (DateLike fromisoformat) fields "updatedAt"

structure MessageFields (fields : List (String × Json)) : Prop where
  id : Present fields "id"
  authorKind : ∃ value, fields.lookup "authorKind" = some value ∧
    OneOf ["user", "staff", "assistant", "system"] value
  text : Present fields "text"
  sentAt : IfPresent (DateLike fromisoformat) fields "sentAt"

structure KbItemFields (fields : List (String × Json)) : Prop where
  id : Present fields "id"
  type : Present fields "type"
  visibility : Present fields "visibility"
  updatedAt : IfPresent (DateLike fromisoformat) fields "updatedAt"

structure OrderFields (fields : List (String × Json)) : Prop where
  id : Present fields "id"
  status : Present fields "status"
  createdAtJalali : Present fields "createdAtJalali"

/-- An object with these fields. -/
def Object (P : List (String × Json) → Prop) (value : Json) : Prop := ∃ fields, value = .obj fields ∧ P fields

/-- A list of such values; an empty text and an empty object have no items either. -/
def ItemsAre (P : Json → Prop) : Json → Prop
  | .arr items => ∀ item ∈ items, P item
  | .str text => text = ""
  | .obj fields => fields = []
  | _ => False

/-- The body that a call can read. -/
def WellFormed : HttpCall → Json → Prop
  | .getConversation _ _, body => Object (ConversationFields fromisoformat) body
  | .getMessages _ _ _, body => ItemsAre (Object (MessageFields fromisoformat)) (itemsOf body)
  | .listKbItems _, body => ItemsAre (Object (KbItemFields fromisoformat)) (itemsOf body)
  | .getRecentOrders _ _, body => ItemsAre (Object OrderFields) (itemsOf body)
  | .postAssistantMessage _ _ _ _, body => Object (Present · "id") body
  | .handoff _ _, _ => True

/-- The errors of the mapping are not the expected ones. -/
abbrev Raw {α : Type} (x : Except Error α) : Prop := FailsIn (fun e => ¬ Expected e) x

theorem subscript_raw (data : Json) (key : String) : Raw (subscript data key) := by
  unfold subscript
  split
  · split
    · exact failsIn_ok _
    · exact failsIn_error not_false
  · exact failsIn_error not_false

theorem get_raw (data : Json) (key : String) (default : Json) : Raw (get data key default) := by
  unfold get
  split
  · exact failsIn_ok _
  · exact failsIn_error not_false

theorem conversationStatus_raw (value : Json) : Raw (conversationStatus value) := by
  unfold conversationStatus
  split <;> first | exact failsIn_ok _ | exact failsIn_error not_false

theorem handledBy_raw (value : Json) : Raw (handledBy value) := by
  unfold handledBy
  split <;> first | exact failsIn_ok _ | exact failsIn_error not_false

theorem authorKind_raw (value : Json) : Raw (authorKind value) := by
  unfold authorKind
  split <;> first | exact failsIn_ok _ | exact failsIn_error not_false

theorem parseDt_raw (value : Json) : Raw (parseDt fromisoformat value) := by
  unfold parseDt
  split
  · exact failsIn_ok _
  · split
    · split
      · exact failsIn_ok _
      · exact failsIn_error not_false
    · exact failsIn_error not_false

theorem subscript_succeeds {fields : List (String × Json)} {key : String} :
    Succeeds (subscript (.obj fields) key) ↔ Present fields key := by
  unfold subscript Present
  cases found : fields.lookup key <;> simp [found]

theorem conversationStatus_succeeds {value : Json} :
    Succeeds (conversationStatus value) ↔ OneOf ["queued", "opened", "closed"] value := by
  unfold conversationStatus OneOf
  split <;> simp_all

theorem handledBy_succeeds {value : Json} :
    Succeeds (handledBy value) ↔ OneOf ["assistant", "staff"] value := by
  unfold handledBy OneOf
  split <;> simp_all

theorem authorKind_succeeds {value : Json} :
    Succeeds (authorKind value) ↔ OneOf ["user", "staff", "assistant", "system"] value := by
  unfold authorKind OneOf
  split <;> simp_all

theorem parseDt_succeeds {value : Json} :
    Succeeds (parseDt fromisoformat value) ↔ DateLike fromisoformat value := by
  unfold parseDt DateLike
  by_cases nothing : value.truthy = false
  · simp [nothing]
  · rw [if_neg nothing]
    cases value with
    | str text => cases time : fromisoformat (withOffset text) <;> simp [time, nothing]
    | _ => simp [nothing]

/-- A default that is fine leaves the values that are there. -/
theorem getD_ifPresent {P : Json → Prop} {default : Json} (fine : P default)
    {fields : List (String × Json)} {key : String} :
    P ((fields.lookup key).getD default) ↔ IfPresent P fields key := by
  unfold IfPresent
  cases fields.lookup key <;> simp [fine]

theorem object_of_obj {P : List (String × Json) → Prop} {fields : List (String × Json)} :
    Object P (.obj fields) ↔ P fields := by simp [Object]

theorem statusField {fields : List (String × Json)} :
    Succeeds (conversationStatus ((fields.lookup "status").getD (.str "opened"))) ↔
      IfPresent (OneOf ["queued", "opened", "closed"]) fields "status" :=
  conversationStatus_succeeds.trans (getD_ifPresent ⟨"opened", by simp, rfl⟩)

theorem handledByField {fields : List (String × Json)} :
    Succeeds (handledBy ((fields.lookup "handledBy").getD (.str "assistant"))) ↔
      IfPresent (OneOf ["assistant", "staff"]) fields "handledBy" :=
  handledBy_succeeds.trans (getD_ifPresent ⟨"assistant", by simp, rfl⟩)

theorem dateField {fields : List (String × Json)} {key : String} :
    Succeeds (parseDt fromisoformat ((fields.lookup key).getD .null)) ↔
      IfPresent (DateLike fromisoformat) fields key :=
  (parseDt_succeeds fromisoformat).trans (getD_ifPresent (.inl rfl))

theorem authorKindField {fields : List (String × Json)} :
    Succeeds (subscript (.obj fields) "authorKind" >>= authorKind) ↔
      ∃ value, fields.lookup "authorKind" = some value ∧
        OneOf ["user", "staff", "assistant", "system"] value := by
  simp only [succeeds_bind, authorKind_succeeds]
  unfold subscript
  cases found : fields.lookup "authorKind" <;> simp [found]

theorem conversationFromJson_succeeds {body : Json} :
    Succeeds (conversationFromJson fromisoformat body) ↔ Object (ConversationFields fromisoformat) body := by
  cases body with
  | obj fields =>
      have parts : Succeeds (conversationFromJson fromisoformat (.obj fields)) ↔
          Succeeds (subscript (.obj fields) "id") ∧ Succeeds (subscript (.obj fields) "userId") ∧
          Succeeds (conversationStatus ((fields.lookup "status").getD (.str "opened"))) ∧
          Succeeds (handledBy ((fields.lookup "handledBy").getD (.str "assistant"))) ∧
          Succeeds (parseDt fromisoformat ((fields.lookup "createdAt").getD .null)) ∧
          Succeeds (parseDt fromisoformat ((fields.lookup "updatedAt").getD .null)) := by
        simp only [conversationFromJson, get, succeeds_bind, succeeds_pure, and_true, Except.ok.injEq,
          exists_eq_left', exists_and_right]
        rfl
      rw [object_of_obj, parts, subscript_succeeds, subscript_succeeds, statusField, handledByField,
        dateField, dateField]
      constructor
      · rintro ⟨id, userId, status, handledBy, createdAt, updatedAt⟩
        exact { id, userId, status, handledBy, createdAt, updatedAt }
      · exact fun all => ⟨all.id, all.userId, all.status, all.handledBy, all.createdAt, all.updatedAt⟩
  | _ => simp [conversationFromJson, subscript, Object, succeeds_bind]

theorem messageFromJson_succeeds {convId : String} {body : Json} :
    Succeeds (messageFromJson fromisoformat convId body) ↔ Object (MessageFields fromisoformat) body := by
  cases body with
  | obj fields =>
      have parts : Succeeds (messageFromJson fromisoformat convId (.obj fields)) ↔
          Succeeds (subscript (.obj fields) "id") ∧
          Succeeds (subscript (.obj fields) "authorKind" >>= authorKind) ∧
          Succeeds (subscript (.obj fields) "text") ∧
          Succeeds (parseDt fromisoformat ((fields.lookup "sentAt").getD .null)) := by
        simp only [messageFromJson, get, succeeds_bind, succeeds_pure, and_true, Except.ok.injEq,
          exists_eq_left', exists_eq']
        simp only [Succeeds, ← and_assoc, exists_and_right]
      rw [object_of_obj, parts, subscript_succeeds, authorKindField, subscript_succeeds, dateField]
      constructor
      · rintro ⟨id, authorKind, text, sentAt⟩
        exact { id, authorKind, text, sentAt }
      · exact fun all => ⟨all.id, all.authorKind, all.text, all.sentAt⟩
  | _ => simp [messageFromJson, subscript, Object, succeeds_bind]

theorem kbItemFromJson_succeeds {body : Json} :
    Succeeds (kbItemFromJson fromisoformat body) ↔ Object (KbItemFields fromisoformat) body := by
  cases body with
  | obj fields =>
      have parts : Succeeds (kbItemFromJson fromisoformat (.obj fields)) ↔
          Succeeds (subscript (.obj fields) "id") ∧ Succeeds (subscript (.obj fields) "type") ∧
          Succeeds (subscript (.obj fields) "visibility") ∧
          Succeeds (parseDt fromisoformat ((fields.lookup "updatedAt").getD .null)) := by
        simp only [kbItemFromJson, get, succeeds_bind, succeeds_pure, and_true, Except.ok.injEq,
          exists_eq_left', exists_eq', exists_and_right]
        rfl
      rw [object_of_obj, parts, subscript_succeeds, subscript_succeeds, subscript_succeeds, dateField]
      constructor
      · rintro ⟨id, type, visibility, updatedAt⟩
        exact { id, type, visibility, updatedAt }
      · exact fun all => ⟨all.id, all.type, all.visibility, all.updatedAt⟩
  | _ => simp [kbItemFromJson, subscript, Object, succeeds_bind]

theorem orderFromJson_succeeds {body : Json} : Succeeds (orderFromJson body) ↔ Object OrderFields body := by
  cases body with
  | obj fields =>
      have parts : Succeeds (orderFromJson (.obj fields)) ↔
          Succeeds (subscript (.obj fields) "id") ∧ Succeeds (subscript (.obj fields) "status") ∧
          Succeeds (subscript (.obj fields) "createdAtJalali") := by
        simp only [orderFromJson, get, succeeds_bind, succeeds_pure, and_true, Except.ok.injEq, exists_eq',
          exists_and_right]
        rfl
      rw [object_of_obj, parts, subscript_succeeds, subscript_succeeds, subscript_succeeds]
      constructor
      · rintro ⟨id, status, createdAtJalali⟩
        exact { id, status, createdAtJalali }
      · exact fun all => ⟨all.id, all.status, all.createdAtJalali⟩
  | _ => simp [orderFromJson, subscript, Object, succeeds_bind]

theorem conversationFromJson_raw (body : Json) : Raw (conversationFromJson fromisoformat body) := by
  unfold conversationFromJson
  repeat' first
    | exact failsIn_ok _
    | refine failsIn_bind (subscript_raw _ _) fun _ => ?_
    | refine failsIn_bind (get_raw _ _ _) fun _ => ?_
    | refine failsIn_bind (conversationStatus_raw _) fun _ => ?_
    | refine failsIn_bind (handledBy_raw _) fun _ => ?_
    | refine failsIn_bind (parseDt_raw _ _) fun _ => ?_

theorem messageFromJson_raw (convId : String) (body : Json) :
    Raw (messageFromJson fromisoformat convId body) := by
  unfold messageFromJson
  repeat' first
    | exact failsIn_ok _
    | refine failsIn_bind (subscript_raw _ _) fun _ => ?_
    | refine failsIn_bind (get_raw _ _ _) fun _ => ?_
    | refine failsIn_bind (authorKind_raw _) fun _ => ?_
    | refine failsIn_bind (parseDt_raw _ _) fun _ => ?_

theorem kbItemFromJson_raw (body : Json) : Raw (kbItemFromJson fromisoformat body) := by
  unfold kbItemFromJson
  repeat' first
    | exact failsIn_ok _
    | refine failsIn_bind (subscript_raw _ _) fun _ => ?_
    | refine failsIn_bind (get_raw _ _ _) fun _ => ?_
    | refine failsIn_bind (parseDt_raw _ _) fun _ => ?_

theorem orderFromJson_raw (body : Json) : Raw (orderFromJson body) := by
  unfold orderFromJson
  repeat' first
    | exact failsIn_ok _
    | refine failsIn_bind (subscript_raw _ _) fun _ => ?_
    | refine failsIn_bind (get_raw _ _ _) fun _ => ?_

theorem subscript_object {body : Json} {key : String} :
    Succeeds (subscript body key) ↔ Object (Present · key) body := by
  cases body with
  | obj fields => rw [subscript_succeeds, object_of_obj]
  | _ => simp [subscript, Object]

theorem iterate_raw (value : Json) : Raw (iterate value) := by
  unfold iterate
  split <;> first | exact failsIn_ok _ | exact failsIn_error not_false

variable {α : Type} {convert : Json → Except Error α} {P : List (String × Json) → Prop}

theorem listing_raw (raw : ∀ item, Raw (convert item)) (body : Json) : Raw (listing convert body) :=
  failsIn_bind (iterate_raw _) fun _ => failsIn_mapM fun item _ => raw item

theorem listing_succeeds (converts : ∀ item, Succeeds (convert item) ↔ Object P item) {body : Json} :
    Succeeds (listing convert body) ↔ ItemsAre (Object P) (itemsOf body) := by
  have text : ∀ s : String, ¬ Object P (.str s) := by simp [Object]
  simp only [listing, succeeds_bind, succeeds_mapM, converts]
  cases itemsOf body with
  | arr items => simp [iterate, ItemsAre]
  | str s =>
      simp only [iterate, ItemsAre, Except.ok.injEq, exists_eq_left', List.forall_mem_map, text]
      rw [← String.toList_eq_nil_iff, List.eq_nil_iff_forall_not_mem]
  | obj fields =>
      simp only [iterate, ItemsAre, Except.ok.injEq, exists_eq_left', List.forall_mem_map, text]
      rw [List.eq_nil_iff_forall_not_mem]
  | _ => simp [iterate, ItemsAre]

/-- The answer that decides a call: a read is tried again once after a transport error
    or a server error. -/
def decisive (method : Method) (answers : Nat → Answer) : Answer :=
  match method, answers 0 with
  | .get, .transportError => answers 1
  | .get, .response response => if 500 ≤ response.status then answers 1 else answers 0
  | .post, first => first

/-- What the call makes of that answer. -/
def outcome (convId : Option String) : Answer → Except Error Response
  | .transportError => .error (.backendUnavailable .unreachable)
  | .response response =>
      if response.status = 404 ∨ response.status = 403 then .error (.conversationNotFound convId)
      else if 400 ≤ response.status then .error (.backendUnavailable (.returned response.status))
      else .ok response

theorem attempts_one (answers : Nat → Answer) (request : Request) (convId : Option String) (attempt : Nat) :
    (attempts answers request convId 1 attempt).1 = outcome convId (answers attempt) := by
  simp only [attempts, outcome]
  cases answers attempt with
  | transportError => rfl
  | response response =>
      simp only [ne_eq, not_true_eq_false, and_false, if_false]
      split
      · rfl
      · split <;> rfl

theorem send_eq (answers : Nat → Answer) (request : Request) (convId : Option String) :
    (send answers request convId).1 = outcome convId (decisive request.method answers) := by
  unfold send
  cases request.method with
  | post => exact attempts_one answers request convId 0
  | get =>
      have retry := attempts_one answers request convId 1
      rw [if_pos rfl, getRetries, attempts]
      unfold decisive
      cases first : answers 0 with
      | transportError => simpa using retry
      | response response =>
          by_cases missing : response.status = 404 ∨ response.status = 403
          · have client : ¬ 500 ≤ response.status := by omega
            simp [missing, client, outcome]
          · by_cases server : 500 ≤ response.status
            · simp [missing, server, retry]
            · by_cases client : 400 ≤ response.status <;> simp [missing, server, client, outcome]

theorem outcome_ok {convId : Option String} {answer : Answer} {response : Response} :
    outcome convId answer = .ok response ↔ answer = .response response ∧ response.status < 400 := by
  cases answer with
  | transportError => simp [outcome]
  | response other =>
      simp only [outcome, Answer.response.injEq]
      by_cases missing : other.status = 404 ∨ other.status = 403
      · simp only [if_pos missing, reduceCtorEq, false_iff, not_and]
        rintro rfl
        omega
      · by_cases client : 400 ≤ other.status
        · simp only [if_neg missing, if_pos client, reduceCtorEq, false_iff, not_and]
          rintro rfl
          omega
        · simp only [if_neg missing, if_neg client, Except.ok.injEq, iff_self_and]
          rintro rfl
          omega

theorem outcome_expected (convId : Option String) (answer : Answer) :
    FailsIn Expected (outcome convId answer) := by
  unfold outcome
  split
  · exact failsIn_error trivial
  · split
    · exact failsIn_error trivial
    · split
      · exact failsIn_error trivial
      · exact failsIn_ok _

/-- A call that decodes a body raises only expected errors if it can read the body. -/
theorem decode_expected_iff {β : Type} {decode : Json → Except Error β} {W : Json → Prop}
    (raw : ∀ body, Raw (decode body)) (reads : ∀ body, Succeeds (decode body) ↔ W body)
    (answers : Nat → Answer) (request : Request) (convId : Option String) :
    FailsIn Expected
        (Exchange.andThen (send answers request convId) fun response => do decode (← jsonOf response)).1 ↔
      ∀ status body, decisive request.method answers = .response { status, body := some body } →
        status < 400 → W body := by
  simp only [Exchange.andThen, send_eq]
  constructor
  · intro expected status body answered fine
    rw [answered, outcome_ok.mpr ⟨rfl, fine⟩] at expected
    exact (reads body).mp ((failsIn_iff_succeeds (raw body)).mp expected)
  · intro wellFormed
    cases result : outcome convId (decisive request.method answers) with
    | error e =>
        have expected := outcome_expected convId (decisive request.method answers)
        rw [result] at expected
        intro e' failed
        cases failed
        exact expected e rfl
    | ok response =>
        obtain ⟨answered, fine⟩ := outcome_ok.mp result
        obtain ⟨status, content⟩ := response
        cases content with
        | none =>
            intro e failed
            cases failed
            trivial
        | some body =>
            have read := (reads body).mpr (wellFormed status body answered fine)
            exact (failsIn_iff_succeeds (raw body)).mpr read

theorem map_expected_iff {β γ : Type} {x : Except Error β} (wrap : β → γ) :
    FailsIn Expected (wrap <$> x) ↔ FailsIn Expected x := by
  constructor
  · intro expected e failed
    exact expected e (by rw [failed]; rfl)
  · exact failsIn_map

theorem only_expected_errors_iff (backend : HttpMainBackend) (call : HttpCall) (answers : Nat → Answer) :
    FailsIn Expected (backend.perform answers call) ↔
      ∀ status body, decisive (backend.requestOf call).method answers =
          .response { status, body := some body } →
        status < 400 → WellFormed backend.fromisoformat call body := by
  cases call with
  | getConversation convId actor =>
      exact (map_expected_iff _).trans (decode_expected_iff (conversationFromJson_raw _)
        (fun _ => conversationFromJson_succeeds _) ..)
  | getMessages convId actor limit =>
      exact (map_expected_iff _).trans (decode_expected_iff (listing_raw (messageFromJson_raw _ convId))
        (fun _ => listing_succeeds fun _ => messageFromJson_succeeds _) ..)
  | listKbItems updatedSince =>
      exact (map_expected_iff _).trans (decode_expected_iff (listing_raw (kbItemFromJson_raw _))
        (fun _ => listing_succeeds fun _ => kbItemFromJson_succeeds _) ..)
  | getRecentOrders actor limit =>
      exact (map_expected_iff _).trans (decode_expected_iff (listing_raw orderFromJson_raw)
        (fun _ => listing_succeeds fun _ => orderFromJson_succeeds) ..)
  | postAssistantMessage convId text idemKey metadata =>
      exact (map_expected_iff _).trans (decode_expected_iff (fun body => subscript_raw body "id")
        (fun _ => subscript_object) ..)
  | handoff convId reason =>
      have expected : FailsIn Expected (backend.handoff answers convId reason).1 := by
        simp only [HttpMainBackend.handoff, Exchange.andThen, send_eq]
        exact failsIn_bind (outcome_expected _ _) fun _ => failsIn_ok ()
      exact ⟨fun _ _ _ _ _ => trivial, fun _ => (map_expected_iff _).mpr expected⟩

/-- A conversation without its fields raises `KeyError`. -/
theorem empty_conversation_leaks :
    ¬ ∀ (backend : HttpMainBackend) (call : HttpCall) (answers : Nat → Answer),
      FailsIn Expected (backend.perform answers call) := by
  intro always
  exact always { requestId := none, fromisoformat := fun _ => none, isoformat := fun _ => "" }
    (.getConversation "c1" { userId := "u1", role := .user })
    (fun _ => .response { status := 200, body := some (.obj []) }) (.keyError "id") rfl

end Nipoto.Connectors
