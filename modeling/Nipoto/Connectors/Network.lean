import Nipoto.Connectors.Contained
import Nipoto.General.Delivery

/-! # The connector on the network

Any number of calls of the HTTP connector at the same time. `_request` goes on
from answer to answer, so a call is a caller of the network and what it returns
is what `send` makes of the answers it has heard.
-/

namespace Nipoto.Connectors

open Delivery

/-- A call, and the connector in the context it is made in. -/
structure Asked where
  backend : HttpMainBackend
  call : HttpCall

namespace Asked

variable (asked : Asked)

def request : Request := asked.backend.requestOf asked.call

def convId : Option String := HttpMainBackend.convIdOf asked.call

def attempts : Nat := if asked.request.method = .get then getRetries else 1

end Asked

/-- `none` is a transport error. -/
def answerOf : Option Response → Answer
  | none => .transportError
  | some response => .response response

/-- One pass of the loop of `_request`, `none` if it continues. -/
def pass (attempts : Nat) (convId : Option String) (attempt : Nat) : Answer → Option (Except Error Response)
  | .transportError =>
      if attempt + 1 < attempts then none else some (.error (.backendUnavailable .unreachable))
  | .response response =>
      if response.status = 404 ∨ response.status = 403 then some (.error (.conversationNotFound convId))
      else if 500 ≤ response.status ∧ attempt + 1 < attempts then none
      else if 400 ≤ response.status then some (.error (.backendUnavailable (.returned response.status)))
      else some (.ok response)

/-- A pass that ends the loop ends it with what its answer means. -/
theorem pass_some {attempts : Nat} {convId : Option String} {attempt : Nat} {answer : Answer}
    {result : Except Error Response} (ended : pass attempts convId attempt answer = some result) :
    result = outcome convId answer := by
  cases answer with
  | transportError =>
      simp only [pass] at ended
      split at ended
      · cases ended
      · exact (Option.some.inj ended).symm
  | response response =>
      simp only [pass] at ended
      simp only [outcome]
      split at ended
      · rename_i missing
        rw [if_pos missing]
        exact (Option.some.inj ended).symm
      rename_i found
      rw [if_neg found]
      split at ended
      · cases ended
      split at ended
      · rename_i failed
        rw [if_pos failed]
        exact (Option.some.inj ended).symm
      · rename_i fine
        rw [if_neg fine]
        exact (Option.some.inj ended).symm

theorem pass_last {attempts : Nat} {convId : Option String} {attempt : Nat} (last : attempts ≤ attempt + 1)
    (answer : Answer) : (pass attempts convId attempt answer).isSome := by
  have past : ¬ attempt + 1 < attempts := Nat.not_lt.mpr last
  cases answer with
  | transportError => simp [pass, past]
  | response response =>
      simp only [pass, past, and_false, if_false]
      split
      · rfl
      · split <;> rfl

/-- The connector as a caller. -/
def protocol : Protocol Asked Request Response (Except Error Response) where
  request := Asked.request
  attempts := Asked.attempts
  react asked attempt heard := pass asked.attempts asked.convId attempt (answerOf heard)
  begins asked := by
    unfold Asked.attempts getRetries
    split <;> decide
  stops _ _ heard last := pass_last last (answerOf heard)

/-- The attempts of `_request` that are left, by its next pass. -/
theorem attempts_pass (answers : Nat → Answer) (request : Request) (convId : Option String) (left attempt : Nat) :
    Connectors.attempts answers request convId (left + 1) attempt =
      match pass (attempt + (left + 1)) convId attempt (answers attempt) with
      | none =>
          ((Connectors.attempts answers request convId left (attempt + 1)).1,
            request :: (Connectors.attempts answers request convId left (attempt + 1)).2)
      | some result => (result, [request]) := by
  have more : attempt + 1 < attempt + (left + 1) ↔ left ≠ 0 := by omega
  rw [Connectors.attempts]
  cases answers attempt with
  | transportError =>
      simp only [pass, more]
      split <;> rfl
  | response response =>
      simp only [pass, more]
      split
      · rfl
      split
      · rfl
      split <;> rfl

/-- The answers to the attempts begin with what was heard. -/
def Heard (answers : Nat → Answer) (heard : List (Option Response)) : Prop :=
  ∀ (i : Nat) answer, heard[i]? = some answer → answers i = answerOf answer

theorem attempts_settled (asked : Asked) {answers : Nat → Answer} {last : Option Response}
    {result : Except Error Response} {earlier : List (Option Response)} {left attempt : Nat}
    (total : attempt + left = asked.attempts) (enough : earlier.length < left)
    (goesOn : ∀ (i : Nat) answer, earlier[i]? = some answer →
      pass asked.attempts asked.convId (attempt + i) (answerOf answer) = none)
    (ended : pass asked.attempts asked.convId (attempt + earlier.length) (answerOf last) = some result)
    (heard : ∀ (i : Nat) answer, (earlier ++ [last])[i]? = some answer → answers (attempt + i) = answerOf answer) :
    Connectors.attempts answers asked.request asked.convId left attempt =
      (result, List.replicate (earlier.length + 1) asked.request) := by
  induction earlier generalizing left attempt with
  | nil =>
      obtain ⟨left, rfl⟩ : ∃ n, left = n + 1 := ⟨left - 1, by omega⟩
      rw [attempts_pass, total, show answers attempt = answerOf last from heard 0 last rfl]
      simp only [List.length_nil, Nat.add_zero] at ended
      simp only [ended]
      rfl
  | cons first earlier ih =>
      obtain ⟨left, rfl⟩ : ∃ n, left = n + 1 := ⟨left - 1, by omega⟩
      have here : pass asked.attempts asked.convId attempt (answerOf first) = none := goesOn 0 first rfl
      have shift : ∀ i, attempt + 1 + i = attempt + (i + 1) := by omega
      have later : attempt + 1 + left = asked.attempts := by omega
      have rest := ih later (Nat.lt_of_succ_lt_succ enough)
        (by
          intro i answer told
          rw [shift]
          exact goesOn (i + 1) answer told)
        (by rw [shift]; exact ended)
        (by
          intro i answer told
          rw [shift]
          exact heard (i + 1) answer told)
      rw [attempts_pass, total, show answers attempt = answerOf first from heard 0 first rfl]
      simp only [here, rest]
      rfl

variable {S : Type} {serve : S → Request → Response × S} {start : S}

/-- What the callers of the connector do on the network. -/
abbrev Network (S : Type) := State Asked Response (Except Error Response) S

/-- A call that is done returns what `send` does on the answers it heard. -/
theorem done_send {caller : Caller Asked Response (Except Error Response)} (follows : Follows protocol caller)
    {result : Except Error Response} (done : caller.outcome = some result) {answers : Nat → Answer}
    (heard : Heard answers caller.heard) :
    send answers caller.call.request caller.call.convId =
      (result, List.replicate caller.heard.length caller.call.request) := by
  obtain ⟨earlier, last, split, goesOn, ended⟩ := follows.done result done
  have few := follows.few
  rw [Caller.sent, done, split, List.length_append, List.length_singleton] at few
  have started : ∀ i, 0 + i = i := Nat.zero_add
  rw [split, List.length_append, List.length_singleton]
  have stopped : pass caller.call.attempts caller.call.convId (0 + earlier.length) (answerOf last) = some result := by
    rw [started]
    exact ended
  refine attempts_settled caller.call (Nat.zero_add _) few ?_ stopped ?_
  · intro i answer told
    rw [started]
    exact goesOn i answer told
  · intro i answer told
    rw [started]
    rw [split] at heard
    exact heard i answer told

/-- A call reaches the server at most as often as it may be tried, and returns what
    `send` does. A write that does not end with a transport error has reached the
    server once and returns what the server answered. -/
structure Delivered (s : Network S) (k : Nat) (caller : Caller Asked Response (Except Error Response)) : Prop where
  few : (s.servedFor k).length ≤ caller.call.attempts
  sends : ∀ result, caller.outcome = some result → ∀ answers, Heard answers caller.heard →
    send answers caller.call.request caller.call.convId =
      (result, List.replicate caller.heard.length caller.call.request)
  written : caller.call.request.method = .post → ∀ result, caller.outcome = some result →
    result ≠ .error (.backendUnavailable .unreachable) →
      ∃ e, s.servedFor k = [e] ∧ result = outcome caller.call.convId (.response e.reply)

theorem consistent_delivered {s : Network S} (ok : Consistent protocol serve start s) {k : Nat}
    {caller : Caller Asked Response (Except Error Response)} (known : s.callers[k]? = some caller) :
    Delivered s k caller where
  few := (servedFor_le ok known).trans (ok.follows k caller known).few
  sends := fun _ done _ heard => done_send (ok.follows k caller known) done heard
  written := by
    intro write result done arrived
    obtain ⟨earlier, last, split, ended, log⟩ := done_served ok known done
    have meaning : result = outcome caller.call.convId (answerOf last) := pass_some ended
    cases last with
    | none => exact absurd meaning arrived
    | some reply =>
        obtain ⟨e, member, -, -, same⟩ := log reply rfl
        have once : caller.call.attempts = 1 := by simp [Asked.attempts, write]
        have few : (s.servedFor k).length ≤ 1 :=
          once ▸ (servedFor_le ok known).trans (ok.follows k caller known).few
        obtain ⟨only, single⟩ := List.length_eq_one_iff.mp
          (Nat.le_antisymm few (List.length_pos_of_mem member))
        rw [single] at member
        obtain rfl := List.mem_singleton.mp member
        exact ⟨e, single, by rw [meaning, ← same]; rfl⟩

/-- Whatever is lost or late, and whatever else goes on at the same time. -/
theorem calls_delivered {actions : List (Action Asked)} {s : Network S}
    (reached : Transitions.runs (step protocol serve) { server := start } actions = some s) {k : Nat}
    {caller : Caller Asked Response (Except Error Response)} (known : s.callers[k]? = some caller) :
    Delivered s k caller :=
  consistent_delivered (runs_consistent (consistent_start start) reached) known

/-- A connector without a request id. -/
def plainConnector : HttpMainBackend where
  requestId := none
  fromisoformat := fun _ => none
  isoformat := fun _ => ""

/-- A server that counts what it is asked. -/
def counting : Nat → Request → Response × Nat := fun asked _ => ({ status := 204, body := none }, asked + 1)

/-- A handoff that reaches the server when its caller has given up, next to another. -/
def lateHandoff : List (Action Asked) :=
  [.call ⟨plainConnector, .handoff "c1" "error"⟩, .call ⟨plainConnector, .handoff "c1" "turn_limit"⟩, .fail 0,
    .serve ⟨1, 0⟩, .serve ⟨0, 0⟩, .reply 1]

theorem calls_delivered_late :
    ∃ s, Transitions.runs (step protocol counting) { server := 0 } lateHandoff = some s ∧
      s.server = 2 ∧ ∃ caller, s.callers[0]? = some caller ∧ Delivered s 0 caller :=
  ⟨_, rfl, rfl, _, rfl, @calls_delivered Nat counting 0 lateHandoff _ rfl 0 _ rfl⟩

/-- What a call returned is what the server answered it in the log, unless it heard
    nothing from the server. -/
def TakesEffect (s : Network S) (k : Nat) (caller : Caller Asked Response (Except Error Response)) : Prop :=
  ∀ result, caller.outcome = some result → result = .error (.backendUnavailable .unreachable) ∨
    ∃ e ∈ s.servedFor k, e.call = caller.call ∧ result = outcome caller.call.convId (.response e.reply)

theorem consistent_takesEffect {s : Network S} (ok : Consistent protocol serve start s) {k : Nat}
    {caller : Caller Asked Response (Except Error Response)} (known : s.callers[k]? = some caller) :
    TakesEffect s k caller := by
  intro result done
  obtain ⟨earlier, last, -, ended, log⟩ := done_served ok known done
  have meaning : result = outcome caller.call.convId (answerOf last) := pass_some ended
  cases last with
  | none => exact .inl meaning
  | some reply =>
      obtain ⟨e, member, -, same, replied⟩ := log reply rfl
      exact .inr ⟨e, member, same, by rw [meaning, ← replied]; rfl⟩

variable (serve start) in
/-- The log is a run of the server, one request after the other, in which each call
    takes effect; a call that is done at `earlier` takes effect there, and one that is
    made later takes effect after that. -/
structure Linearized (earlier s : Network S) : Prop where
  server : s.server = Machine.run serve start (s.requests protocol)
  answers : ∀ before e after, s.served = before ++ e :: after →
    e.reply = (serve (Machine.run serve start (before.map (·.call.request))) e.call.request).1
  effects : ∀ (k : Nat) caller, s.callers[k]? = some caller → TakesEffect s k caller
  done : ∀ (k : Nat) caller, earlier.callers[k]? = some caller → caller.outcome.isSome →
    s.callers[k]? = some caller ∧ TakesEffect earlier k caller
  order : ∃ rest, s.served = earlier.served ++ rest ∧
    ∀ e ∈ s.served, earlier.callers.length ≤ e.ticket.caller → e ∈ rest

theorem calls_linearized {before after : List (Action Asked)} {earlier s : Network S}
    (first : Transitions.runs (step protocol serve) { server := start } before = some earlier)
    (second : Transitions.runs (step protocol serve) earlier after = some s) :
    Linearized serve start earlier s := by
  have okEarlier := runs_consistent (consistent_start start) first
  have ok := runs_consistent okEarlier second
  have later := runs_later second
  constructor
  · exact ok.server
  · exact fun _ _ _ split => reply_of_split ok split
  · exact fun _ _ known => consistent_takesEffect ok known
  · intro k caller known done
    obtain ⟨same, found, -, stays⟩ := later.callers k caller known
    exact ⟨stays done ▸ found, consistent_takesEffect okEarlier known⟩
  · obtain ⟨rest, split⟩ := later.served
    refine ⟨rest, split.symm, ?_⟩
    intro e member new
    rw [← split] at member
    cases List.mem_append.mp member with
    | inl old => exact absurd (served_before okEarlier old) (Nat.not_lt.mpr new)
    | inr young => exact young

/-- A handoff from its call to its reply. -/
def promptHandoff (caller : Nat) (reason : String) : List (Action Asked) :=
  [.call ⟨plainConnector, .handoff "c1" reason⟩, .serve ⟨caller, 0⟩, .reply caller]

theorem calls_linearized_in_turn :
    ∃ earlier s, Transitions.runs (step protocol counting) { server := 0 } (promptHandoff 0 "error") = some earlier ∧
      Transitions.runs (step protocol counting) earlier (promptHandoff 1 "turn_limit") = some s ∧
      Linearized counting 0 earlier s :=
  ⟨_, _, rfl, rfl,
    @calls_linearized Nat counting 0 (promptHandoff 0 "error") (promptHandoff 1 "turn_limit") _ _ rfl rfl⟩

end Nipoto.Connectors
