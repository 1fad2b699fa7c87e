import Nipoto.Connectors.Contract
import Nipoto.Connectors.Network
import Nipoto.Connectors.PostOnce

/-! # The two connectors against each other

A main backend that answers as the in-memory backend does, reached over the
network. What the HTTP connector returns is then what the in-memory backend
returns, at some moment of the call, or the call raises `BackendUnavailable`.
-/

namespace Nipoto.Connectors

open Delivery Machine FakeMainBackend

/-- What the HTTP connector returns for a reply of the in-memory backend. -/
def Reply.wired : Reply → HttpReply
  | .conversation conv => .conversation (conv.map .str)
  | .messages found => .messages (found.map (·.map .str))
  | .kbItems found => .kbItems (found.map (·.map .str))
  | .orders found => .orders (found.map (·.map .str))
  | .posted messageId => .posted (.str messageId)
  | .done => .done

def wiredResult (result : Except Error Reply) : Except Error HttpReply := Reply.wired <$> result

/-- The call of the interface. The in-memory backend does not read `meta`, and looks
    at the clock when it writes. -/
def HttpCall.inMemory (now : DateTime) : HttpCall → Call
  | .getConversation convId actor => .getConversation convId actor
  | .getMessages convId actor limit => .getMessages convId actor limit
  | .listKbItems updatedSince => .listKbItems updatedSince
  | .getRecentOrders actor limit => .getRecentOrders actor limit
  | .postAssistantMessage convId text idemKey _ => .postAssistantMessage convId text idemKey now
  | .handoff convId reason => .handoff convId reason

namespace Asked

variable (asked : Asked)

/-- What a method makes of the response. -/
def decode (response : Response) : Except Error HttpReply :=
  let read := asked.backend.fromisoformat
  match asked.call with
  | .getConversation _ _ => .conversation <$> (jsonOf response >>= conversationFromJson read)
  | .getMessages convId _ _ => .messages <$> (jsonOf response >>= listing (messageFromJson read convId))
  | .listKbItems _ => .kbItems <$> (jsonOf response >>= listing (kbItemFromJson read))
  | .getRecentOrders _ _ => .orders <$> (jsonOf response >>= listing orderFromJson)
  | .postAssistantMessage _ _ _ _ => .posted <$> (jsonOf response >>= (subscript · "id"))
  | .handoff _ _ => .ok .done

/-- What the call returns after `_request`. -/
def returns (result : Except Error Response) : Except Error HttpReply := result >>= asked.decode

theorem map_bind {α β γ : Type} (f : β → γ) (x : Except Error α) (next : α → Except Error β) :
    f <$> (x >>= next) = x >>= fun a => f <$> next a := by
  cases x <;> rfl

theorem perform_returns (answers : Nat → Answer) :
    asked.backend.perform answers asked.call = asked.returns (send answers asked.request asked.convId).1 := by
  obtain ⟨backend, call⟩ := asked
  cases call with
  | handoff convId reason =>
      simp only [HttpMainBackend.perform, HttpMainBackend.handoff, Exchange.andThen, returns, map_bind]
      rfl
  | _ => exact map_bind _ _ _

end Asked

/-- The response says what the in-memory backend returned or raised. -/
def Reports (asked : Asked) : Except Error Reply → Response → Prop
  | .ok reply, response =>
      200 ≤ response.status ∧ response.status < 300 ∧ asked.decode response = .ok reply.wired
  | .error (.conversationNotFound _), response => response.status = 404 ∨ response.status = 403
  | .error _, response => 500 ≤ response.status

/-- A body with a list of objects under `items`. -/
def Listed {α : Type} (written : α → Properties → Prop) (found : List α) (body : Json) : Prop :=
  ∃ fields items, body = .obj fields ∧ fields.lookup "items" = some (.arr items) ∧
    List.Forall₂ (fun a item => ∃ own, item = .obj own ∧ written a own) found items

/-- The body in which the contract writes a reply. -/
def Written (fromisoformat : String → Option DateTime) : HttpCall → Reply → Json → Prop
  | .getConversation _ _, .conversation conv, body =>
      ∃ fields, body = .obj fields ∧ ConversationSchema fromisoformat conv fields
  | .getMessages convId _ _, .messages found, body => Listed (MessageSchema fromisoformat convId) found body
  | .listKbItems _, .kbItems found, body =>
      Listed (fun item fields => ∃ entry, KbItemSchema entry fields ∧ item.updatedAt.isSome ∧
        entry.item fromisoformat = item.map .str) found body
  | .getRecentOrders _ _, .orders found, body => Listed OrderSchema found body
  | .postAssistantMessage _ _ _ _, .posted messageId, body =>
      ∃ fields : Properties, body = .obj fields ∧ fields.Text "id" messageId
  | _, _, _ => False

theorem listing_written {α β : Type} {convert : Json → Except Error β} {written : α → Properties → Prop} {read : α → β}
    (reads : ∀ a fields, written a fields → convert (.obj fields) = .ok (read a)) {found : List α} {body : Json}
    (listed : Listed written found body) : listing convert body = .ok (found.map read) := by
  obtain ⟨fields, items, rfl, there, each⟩ := listed
  have all : items.mapM convert = .ok (found.map read) := by
    clear there
    induction each with
    | nil => rfl
    | cons first _ ih =>
        obtain ⟨own, rfl, isWritten⟩ := first
        rw [List.mapM_cons, reads _ own isWritten, ih]
        rfl
  simp only [listing, itemsOf, there, Option.getD_some, iterate]
  exact all

/-- What the contract writes is read as the reply that it is. -/
theorem decode_written {asked : Asked} {reply : Reply} {status : Int} {body : Json}
    (written : Written asked.backend.fromisoformat asked.call reply body) :
    asked.decode { status, body := some body } = .ok reply.wired := by
  obtain ⟨backend, call⟩ := asked
  cases call <;> cases reply <;> simp only [Written] at written
  case getConversation.conversation convId actor conv =>
      obtain ⟨fields, rfl, isConversation⟩ := written
      exact congrArg (HttpReply.conversation <$> ·) (conversationFromJson_written _ isConversation)
  case getMessages.messages convId actor limit found =>
      exact congrArg (HttpReply.messages <$> ·)
        (listing_written (fun _ _ isMessage => messageFromJson_written _ isMessage) written)
  case listKbItems.kbItems since found =>
      refine congrArg (HttpReply.kbItems <$> ·) (listing_written (fun item fields isItem => ?_) written)
      obtain ⟨entry, isEntry, dated, same⟩ := isItem
      have date : backend.fromisoformat (withOffset entry.updatedAt) = item.updatedAt := congrArg KbItem.updatedAt same
      rw [kbItemFromJson_written _ isEntry, readDate, date, same]
      obtain ⟨time, isTime⟩ := Option.isSome_iff_exists.mp dated
      rw [isTime]
      rfl
  case getRecentOrders.orders actor limit found =>
      exact congrArg (HttpReply.orders <$> ·) (listing_written (fun _ _ isOrder => orderFromJson_written isOrder) written)
  case postAssistantMessage.posted convId text idemKey metadata messageId =>
      obtain ⟨fields, rfl, named⟩ := written
      exact congrArg (HttpReply.posted <$> ·) (subscript_text named)

/-- A response by the contract says what the in-memory backend returned. -/
theorem reports_written {asked : Asked} {reply : Reply} {status : Int} {body : Json} (low : 200 ≤ status)
    (high : status < 300) (written : Written asked.backend.fromisoformat asked.call reply body) :
    Reports asked (.ok reply) { status, body := some body } :=
  ⟨low, high, decode_written written⟩

variable {S : Type}

/-- On the calls of `made`, the server does what the in-memory backend does in the
    state it is seen as. -/
structure StandsIn (serve : S → Request → Response × S) (view : S → FakeMainBackend) (clock : S → DateTime)
    (made : Asked → Prop) : Prop where
  state : ∀ s asked, made asked →
    view (serve s asked.request).2 = ((view s).call (asked.call.inMemory (clock s))).2
  reports : ∀ s asked, made asked →
    Reports asked ((view s).call (asked.call.inMemory (clock s))).1 (serve s asked.request).1

theorem visible_error {s : FakeMainBackend} {convId : String} {actor : Actor} {e : Error}
    (raised : s.visible convId actor = .error e) : e = .conversationNotFound convId := by
  unfold visible at raised
  split at raised
  · exact (Except.error.inj raised).symm
  · split at raised
    · exact (Except.error.inj raised).symm
    · cases raised

theorem changedItems_error {since : DateTime} {items : List (KbItem String)} {e : Error}
    (raised : changedItems since items = .error e) : e = .typeError := by
  have after_error : ∀ {later earlier : DateTime}, later.after earlier = .error e → e = .typeError := by
    intro later earlier failed
    unfold DateTime.after at failed
    split at failed
    · cases failed
    · cases failed
    · exact (Except.error.inj failed).symm
  induction items with
  | nil => cases raised
  | cons item rest ih =>
      rw [changedItems] at raised
      cases changed : changedSince since item with
      | error e' =>
          rw [changed] at raised
          obtain rfl := Except.error.inj raised
          unfold changedSince at changed
          split at changed
          · cases changed
          · exact after_error changed
      | ok _ =>
          rw [changed] at raised
          cases later : changedItems since rest with
          | error e' =>
              rw [later] at raised
              obtain rfl := Except.error.inj raised
              exact ih later
          | ok _ =>
              rw [later] at raised
              cases raised

/-- The two connectors name the same conversation when they do not find it. -/
theorem call_notFound {s : FakeMainBackend} {asked : Asked} {now : DateTime} {convId : Option String}
    (raised : (s.call (asked.call.inMemory now)).1 = .error (.conversationNotFound convId)) :
    asked.convId = convId := by
  obtain ⟨backend, call⟩ := asked
  cases call with
  | getConversation c actor =>
      cases seen : s.visible c actor with
      | ok conv => simp [HttpCall.inMemory, FakeMainBackend.call, FakeMainBackend.getConversation, seen] at raised
      | error e =>
          obtain rfl := visible_error seen
          simp only [HttpCall.inMemory, FakeMainBackend.call, FakeMainBackend.getConversation, seen] at raised
          cases raised
          rfl
  | getMessages c actor limit =>
      cases seen : s.visible c actor with
      | ok conv =>
          simp [HttpCall.inMemory, FakeMainBackend.call, FakeMainBackend.getMessages, seen, Except.map] at raised
      | error e =>
          obtain rfl := visible_error seen
          simp only [HttpCall.inMemory, FakeMainBackend.call, FakeMainBackend.getMessages, seen, Except.map] at raised
          cases raised
          rfl
  | listKbItems updatedSince =>
      cases updatedSince with
      | none => cases raised
      | some since =>
          cases found : changedItems since s.kbItems with
          | ok items => simp [HttpCall.inMemory, FakeMainBackend.call, FakeMainBackend.listKbItems, found] at raised
          | error e =>
              obtain rfl := changedItems_error found
              simp [HttpCall.inMemory, FakeMainBackend.call, FakeMainBackend.listKbItems, found] at raised
  | getRecentOrders actor limit => cases raised
  | postAssistantMessage c text idemKey metadata =>
      simp only [HttpCall.inMemory, FakeMainBackend.call, FakeMainBackend.postAssistantMessage] at raised
      split at raised
      · cases raised
        rfl
      · split at raised <;> cases raised
  | handoff c reason =>
      simp only [HttpCall.inMemory, FakeMainBackend.call, FakeMainBackend.handoff] at raised
      split at raised
      · cases raised
        rfl
      · cases raised

/-- A response that says what the in-memory backend did is read as that, or as a
    failure of the backend. -/
theorem returns_reported {s : FakeMainBackend} {asked : Asked} {now : DateTime} {response : Response}
    (reports : Reports asked (s.call (asked.call.inMemory now)).1 response) :
    (∃ reason, asked.returns (outcome asked.convId (.response response)) = .error (.backendUnavailable reason)) ∨
      asked.returns (outcome asked.convId (.response response)) =
        wiredResult (s.call (asked.call.inMemory now)).1 := by
  cases result : (s.call (asked.call.inMemory now)).1 with
  | ok reply =>
      rw [result] at reports
      obtain ⟨low, high, decoded⟩ := reports
      have fine : outcome asked.convId (.response response) = .ok response := outcome_ok.mpr ⟨rfl, by omega⟩
      rw [fine]
      exact .inr decoded
  | error e =>
      rw [result] at reports
      cases e with
      | conversationNotFound convId =>
          have missing : outcome asked.convId (.response response) = .error (.conversationNotFound asked.convId) := by
            have status : response.status = 404 ∨ response.status = 403 := reports
            rw [outcome, if_pos status]
          rw [missing, call_notFound result]
          exact .inr rfl
      | _ =>
          have status : 500 ≤ response.status := reports
          have found : ¬ (response.status = 404 ∨ response.status = 403) := by omega
          have failed : outcome asked.convId (.response response) =
              .error (.backendUnavailable (.returned response.status)) := by
            rw [outcome, if_neg found, if_pos (by omega)]
          rw [failed]
          exact .inl ⟨_, rfl⟩

section

variable (serve : S → Request → Response × S) (clock : S → DateTime)

/-- The calls of the in-memory backend that stand for what the server was asked. -/
def inMemoryCalls : S → List Asked → List Call
  | _, [] => []
  | s, asked :: rest => asked.call.inMemory (clock s) :: inMemoryCalls (serve s asked.request).2 rest

end

variable {serve : S → Request → Response × S} {view : S → FakeMainBackend} {clock : S → DateTime}
  {made : Asked → Prop} {start : S}

theorem inMemoryCalls_append (before after : List Asked) :
    inMemoryCalls serve clock start (before ++ after) =
      inMemoryCalls serve clock start before ++
        inMemoryCalls serve clock (run serve start (before.map Asked.request)) after := by
  induction before generalizing start with
  | nil => rfl
  | cons asked before ih => simp only [List.cons_append, inMemoryCalls, List.map_cons, run, ih]

theorem mem_inMemoryCalls {asks : List Asked} {x : Call} (member : x ∈ inMemoryCalls serve clock start asks) :
    ∃ asked ∈ asks, ∃ now, x = asked.call.inMemory now := by
  induction asks generalizing start with
  | nil => cases member
  | cons asked rest ih =>
      cases List.mem_cons.mp member with
      | inl here => exact ⟨asked, List.mem_cons_self, clock start, here⟩
      | inr later =>
          obtain ⟨other, found, same⟩ := ih later
          exact ⟨other, List.mem_cons_of_mem asked found, same⟩

theorem view_run (stands : StandsIn serve view clock made) {asks : List Asked} (all : ∀ asked ∈ asks, made asked) :
    view (run serve start (asks.map Asked.request)) =
      run call (view start) (inMemoryCalls serve clock start asks) := by
  induction asks generalizing start with
  | nil => rfl
  | cons asked rest ih =>
      rw [List.map_cons, run, ih fun other member => all other (List.mem_cons_of_mem asked member), inMemoryCalls, run,
        stands.state start asked (all asked List.mem_cons_self)]

/-- The calls that reached the server, in its order. -/
def reachedServer (s : Network S) : List Asked := s.served.map (·.call)

@[simp] theorem inMemoryCalls_length (asks : List Asked) :
    (inMemoryCalls serve clock start asks).length = asks.length := by
  induction asks generalizing start with
  | nil => rfl
  | cons asked rest ih => simp only [inMemoryCalls, List.length_cons, ih]

variable (serve view clock start) in
/-- The server's data is that of a run of the in-memory backend, and a call that is
    done raised `BackendUnavailable` or returned what that backend does at a place of
    the call in this run. -/
structure AsInMemory (s : Network S) : Prop where
  data : view s.server = run call (view start) (inMemoryCalls serve clock start (reachedServer s))
  returns : ∀ (k : Nat) caller result, s.callers[k]? = some caller → caller.outcome = some result →
    (∃ reason, caller.call.returns result = .error (.backendUnavailable reason)) ∨
    ∃ before now after,
      inMemoryCalls serve clock start (reachedServer s) = before ++ caller.call.call.inMemory now :: after ∧
      (s.served[before.length]?).map (·.ticket.caller) = some k ∧
      caller.call.returns result =
        wiredResult ((run call (view start) before).call (caller.call.call.inMemory now)).1

theorem served_made {s : Network S} (ok : Consistent protocol serve start s)
    (all : ∀ (k : Nat) caller, s.callers[k]? = some caller → made caller.call) (log : List (Served Asked Response))
    (inLog : ∀ e ∈ log, e ∈ s.served) : ∀ asked ∈ log.map (·.call), made asked := by
  intro asked member
  obtain ⟨e, here, rfl⟩ := List.mem_map.mp member
  obtain ⟨caller, known, same, -⟩ := ok.sent e (inLog e here)
  exact same ▸ all _ caller known

theorem requests_asked (log : List (Served Asked Response)) :
    log.map (fun e => protocol.request e.call) = (log.map (·.call)).map Asked.request := by
  rw [List.map_map]
  rfl

/-- What the server answered at a place of the log, the in-memory backend answers there. -/
theorem served_reports (stands : StandsIn serve view clock made) {s : Network S}
    (ok : Consistent protocol serve start s)
    (all : ∀ (k : Nat) caller, s.callers[k]? = some caller → made caller.call) {e : Served Asked Response}
    {before after : List (Served Asked Response)} (split : s.served = before ++ e :: after) :
    Reports e.call ((run call (view start) (inMemoryCalls serve clock start (before.map (·.call)))).call
      (e.call.call.inMemory (clock (run serve start ((before.map (·.call)).map Asked.request))))).1 e.reply := by
  have earlier := served_made ok all before fun e' member => split ▸ List.mem_append_left (e :: after) member
  have here := served_made ok all [e] fun e' member => by
    rw [List.mem_singleton.mp member, split]
    exact List.mem_append_right before List.mem_cons_self
  have reports := stands.reports (run serve start ((before.map (·.call)).map Asked.request)) e.call
    (here e.call (List.mem_singleton_self e.call))
  have replied := reply_of_split ok split
  rw [requests_asked] at replied
  rw [view_run stands earlier] at reports
  rw [replied]
  exact reports

theorem consistent_asInMemory (stands : StandsIn serve view clock made) {s : Network S}
    (ok : Consistent protocol serve start s)
    (all : ∀ (k : Nat) caller, s.callers[k]? = some caller → made caller.call) :
    AsInMemory serve view clock start s := by
  constructor
  · rw [ok.server, State.requests, requests_asked]
    exact view_run stands (served_made ok all s.served fun _ member => member)
  · intro k caller result known done
    cases consistent_takesEffect ok known result done with
    | inl lost =>
        subst lost
        exact .inl ⟨.unreachable, rfl⟩
    | inr found =>
        obtain ⟨e, member, same, rfl⟩ := found
        obtain ⟨inLog, mine⟩ := List.mem_filter.mp member
        obtain ⟨before, after, split⟩ := List.append_of_mem inLog
        have reports := served_reports stands ok all split
        rw [same] at reports
        cases returns_reported reports with
        | inl failed => exact .inl failed
        | inr answered =>
            refine .inr ⟨_, _, inMemoryCalls serve clock
              (serve (run serve start ((before.map (·.call)).map Asked.request)) caller.call.request).2
              (after.map (·.call)), ?_, ?_, answered⟩
            · rw [reachedServer, split, List.map_append, inMemoryCalls_append, List.map_cons, inMemoryCalls, same]
            · rw [inMemoryCalls_length, List.length_map, split, List.getElem?_append_right le_rfl]
              simpa using mine

/-- The HTTP connector refines the in-memory backend, whatever the network does. -/
theorem calls_asInMemory (stands : StandsIn serve view clock made) {actions : List (Action Asked)} {s : Network S}
    (reached : Transitions.runs (step protocol serve) { server := start } actions = some s)
    (all : ∀ (k : Nat) caller, s.callers[k]? = some caller → made caller.call) :
    AsInMemory serve view clock start s :=
  consistent_asInMemory stands (runs_consistent (consistent_start start) reached) all

/-- The posts that wrote a message: one for each key, all of them calls that were
    made, and a call that returned an id returned the id of its key's message. -/
structure WrittenOnce (view : S → FakeMainBackend) (start : S) (s : Network S) (written : List Post) : Prop where
  keys : (written.map Post.idemKey).Nodup
  stored : ∀ c, (view s.server).stored c =
    (view start).stored c ++ (written.filter (·.convId = c)).map Post.message
  asked : ∀ p ∈ written, ∃ (k : Nat), ∃ caller metadata, s.callers[k]? = some caller ∧
    caller.call.call = .postAssistantMessage p.convId p.text p.idemKey metadata
  returned : ∀ (k : Nat) caller result convId text idemKey metadata messageId,
    s.callers[k]? = some caller → caller.outcome = some result →
    caller.call.call = .postAssistantMessage convId text idemKey metadata →
    caller.call.returns result = .ok (.posted messageId) →
      ∃ p ∈ written, p.idemKey = idemKey ∧ messageId = .str p.messageId

theorem posted_of_wired {result : Except Error Reply} {messageId : Json}
    (same : wiredResult result = .ok (.posted messageId)) :
    ∃ id, result = .ok (.posted id) ∧ messageId = .str id := by
  cases result with
  | error e => cases same
  | ok reply =>
      cases reply with
      | posted id =>
          cases same
          exact ⟨id, rfl, rfl⟩
      | _ => cases same

/-- A post that reached the server was asked for by a call. -/
theorem asked_of_reached {s : Network S} (ok : Consistent protocol serve start s) {convId text idemKey : String}
    {now : DateTime}
    (member : .postAssistantMessage convId text idemKey now ∈ inMemoryCalls serve clock start (reachedServer s)) :
    ∃ (k : Nat), ∃ caller metadata, s.callers[k]? = some caller ∧
      caller.call.call = .postAssistantMessage convId text idemKey metadata := by
  obtain ⟨asked, reachedIt, now, same⟩ := mem_inMemoryCalls member
  obtain ⟨e, inLog, rfl⟩ := List.mem_map.mp reachedIt
  obtain ⟨caller, known, call, -⟩ := ok.sent e inLog
  refine ⟨e.ticket.caller, caller, ?_⟩
  rw [← call] at same
  cases isPost : caller.call.call with
  | postAssistantMessage convId text idemKey metadata =>
      rw [isPost] at same
      cases same
      exact ⟨metadata, known, rfl⟩
  | _ =>
      rw [isPost] at same
      cases same

theorem mem_posts {t : FakeMainBackend} {before after : List Call} {p : Post}
    (replied : ((run call t before).call (.postAssistantMessage p.convId p.text p.idemKey p.now)).1 =
      .ok (.posted p.messageId)) :
    p ∈ posts (answers call t (before ++ .postAssistantMessage p.convId p.text p.idemKey p.now :: after)) := by
  apply List.mem_filterMap.mpr
  refine ⟨(.postAssistantMessage p.convId p.text p.idemKey p.now, .ok (.posted p.messageId)), ?_, rfl⟩
  rw [answers_append]
  apply List.mem_append_right
  rw [answers, ← replied]
  exact List.mem_cons_self

/-- A call that raised `BackendUnavailable` may be made again with the same key. -/
theorem posts_written_once (stands : StandsIn serve view clock made)
    (fresh : ∀ key, (view start).idempotency key = none) {actions : List (Action Asked)} {s : Network S}
    (reached : Transitions.runs (step protocol serve) { server := start } actions = some s)
    (all : ∀ (k : Nat) caller, s.callers[k]? = some caller → made caller.call) :
    ∃ written, WrittenOnce view start s written := by
  have ok := runs_consistent (consistent_start start) reached
  have inMemory := consistent_asInMemory stands ok all
  have logged := run_logged fresh (inMemoryCalls serve clock start (reachedServer s))
  refine ⟨Firsts.firsts Post.idemKey
    (posts (answers call (view start) (inMemoryCalls serve clock start (reachedServer s)))), ?_⟩
  constructor
  · exact Firsts.firsts_distinct _
  · intro c
    rw [inMemory.data]
    exact logged.messages c
  · intro p member
    have posted := (logged.accepted p.convId p.text p.idemKey p.now).mp
      ⟨p.messageId, Firsts.mem_of_mem_firsts member⟩
    rw [answers_inputs] at posted
    exact asked_of_reached ok posted.1
  · intro k caller result convId text idemKey metadata messageId known done isPost returned
    cases inMemory.returns k caller result known done with
    | inl failed =>
        obtain ⟨reason, raised⟩ := failed
        rw [raised] at returned
        cases returned
    | inr place =>
        obtain ⟨before, now, after, split, -, same⟩ := place
        rw [returned] at same
        obtain ⟨id, replied, rfl⟩ := posted_of_wired same.symm
        rw [isPost] at replied split
        have inTrace := @mem_posts _ before after { convId, text, idemKey, now, messageId := id } replied
        rw [HttpCall.inMemory] at split
        rw [← split] at inTrace
        obtain ⟨p, first, keyEq, idEq⟩ := logged.answered _ inTrace
        exact ⟨p, first, keyEq, by rw [idEq]⟩

/-- It takes the posts to one conversation, and its clock stands. -/
def postServer (s : FakeMainBackend) (request : Request) : Response × FakeMainBackend :=
  match request.headers.lookup "Idempotency-Key", request.json with
  | some idemKey, some (.obj (("text", .str text) :: _)) =>
      let answered := s.call (.postAssistantMessage "c1" text idemKey ⟨0, none⟩)
      match answered.1 with
      | .ok (.posted id) => ({ status := 201, body := some (.obj [("id", .str id)]) }, answered.2)
      | _ => ({ status := 404, body := none }, answered.2)
  | _, _ => ({ status := 404, body := none }, s)

def PostToC1 (asked : Asked) : Prop :=
  ∃ text idemKey metadata, asked.call = .postAssistantMessage "c1" text idemKey metadata

theorem postServer_standsIn : StandsIn postServer id (fun _ => ⟨0, none⟩) PostToC1 := by
  have post : ∀ (s : FakeMainBackend) text idemKey,
      (s.call (.postAssistantMessage "c1" text idemKey ⟨0, none⟩)).1 = .error (.conversationNotFound (some "c1")) ∨
        ∃ id, (s.call (.postAssistantMessage "c1" text idemKey ⟨0, none⟩)).1 = .ok (.posted id) := by
    intro s text idemKey
    simp only [FakeMainBackend.call, FakeMainBackend.postAssistantMessage]
    split
    · exact .inl rfl
    · split
      · exact .inr ⟨_, rfl⟩
      · exact .inr ⟨_, rfl⟩
  constructor
  · rintro s ⟨backend, call⟩ ⟨text, idemKey, metadata, rfl⟩
    simp only [postServer, Asked.request, HttpMainBackend.requestOf, List.lookup_cons, HttpCall.inMemory, id]
    cases post s text idemKey with
    | inl missing => simp [missing]
    | inr posted =>
        obtain ⟨id, posted⟩ := posted
        simp [posted]
  · rintro s ⟨backend, call⟩ ⟨text, idemKey, metadata, rfl⟩
    simp only [postServer, Asked.request, HttpMainBackend.requestOf, List.lookup_cons, HttpCall.inMemory, id]
    cases post s text idemKey with
    | inl missing => simp [missing, Reports]
    | inr posted =>
        obtain ⟨id, posted⟩ := posted
        simp only [posted, beq_self_eq_true]
        exact reports_written (by decide) (by decide) ⟨_, rfl, rfl⟩

/-- A conversation without messages. -/
def emptyConversation : FakeMainBackend :=
  { conversations := fun convId =>
      if convId = "c1" then some { id := "c1", ownerId := "customer", status := .opened, handledBy := .assistant }
      else none }

def postHello : Asked := ⟨plainConnector, .postAssistantMessage "c1" "hello" "key" []⟩

/-- The reply to a post is lost and the post is made again. -/
def postedAgain : List (Action Asked) :=
  [.call postHello, .serve ⟨0, 0⟩, .fail 0, .call postHello, .serve ⟨1, 0⟩, .reply 1]

theorem all_postHello {s : Network FakeMainBackend}
    (reached : Transitions.runs (step protocol postServer) { server := emptyConversation } postedAgain = some s)
    (k : Nat) (caller : Caller Asked Response (Except Error Response)) (known : s.callers[k]? = some caller) :
    PostToC1 caller.call := by
  obtain rfl := Option.some.inj reached
  match k with
  | 0 =>
      obtain rfl := Option.some.inj known
      exact ⟨_, _, _, rfl⟩
  | 1 =>
      obtain rfl := Option.some.inj known
      exact ⟨_, _, _, rfl⟩
  | k + 2 => cases known

theorem calls_asInMemory_posted :
    ∃ s, Transitions.runs (step protocol postServer) { server := emptyConversation } postedAgain = some s ∧
      AsInMemory postServer id (fun _ => ⟨0, none⟩) emptyConversation s :=
  ⟨_, rfl, @calls_asInMemory FakeMainBackend postServer id (fun _ => ⟨0, none⟩) PostToC1 emptyConversation
    postServer_standsIn postedAgain _ rfl (all_postHello rfl)⟩

theorem posts_written_once_again :
    ∃ s, Transitions.runs (step protocol postServer) { server := emptyConversation } postedAgain = some s ∧
      ∃ written, WrittenOnce id emptyConversation s written :=
  ⟨_, rfl, @posts_written_once FakeMainBackend postServer id (fun _ => ⟨0, none⟩) PostToC1 emptyConversation
    postServer_standsIn (fun _ => rfl) postedAgain _ rfl (all_postHello rfl)⟩

end Nipoto.Connectors
