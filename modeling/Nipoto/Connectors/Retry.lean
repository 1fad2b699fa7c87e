import Nipoto.Connectors.Contained

/-! # The retry loop

`_request` for any number of attempts and any method. A read is sent again after
a transport error or a server error, a write never, and the last answer alone
decides what the call returns or raises.
-/

namespace Nipoto.Connectors

/-- How the loop is left. -/
inductive Exit where
  /-- A `return` or a `raise` of its body. -/
  | inside (result : Except Error Response)
  /-- The `raise` after it. -/
  | after

def Exit.result : Exit → Except Error Response
  | .inside result => result
  | .after => .error (.backendUnavailable .unreachable)

/-- How the loop is left and how many requests it has sent. -/
structure Run where
  exit : Exit
  sent : Nat

/-- One more request, and the next pass. -/
def Run.resent (later : Run) : Run := { later with sent := later.sent + 1 }

/-- `for attempt in range(attempts)`, from an attempt on. -/
def loop (answers : Nat → Answer) (convId : Option String) (attempts : Nat) : (left attempt : Nat) → Run
  | 0, _ => { exit := .after, sent := 0 }
  | left + 1, attempt =>
      match answers attempt with
      | .transportError =>
          if attempt + 1 < attempts then (loop answers convId attempts left (attempt + 1)).resent
          else { exit := .inside (.error (.backendUnavailable .unreachable)), sent := 1 }
      | .response response =>
          if response.status = 404 ∨ response.status = 403 then
            { exit := .inside (.error (.conversationNotFound convId)), sent := 1 }
          else if 500 ≤ response.status ∧ attempt + 1 < attempts then
            (loop answers convId attempts left (attempt + 1)).resent
          else if 400 ≤ response.status then
            { exit := .inside (.error (.backendUnavailable (.returned response.status))), sent := 1 }
          else { exit := .inside (.ok response), sent := 1 }

/-- `GET_RETRIES if method == "GET" else 1`. -/
def attemptsFor (retries : Nat) (method : String) : Nat := if method = "GET" then retries else 1

/-- `_request`, with `retries` for `GET_RETRIES`. -/
def request (retries : Nat) (method : String) (answers : Nat → Answer) (convId : Option String) : Run :=
  loop answers convId (attemptsFor retries method) (attemptsFor retries method) 0

/-- A transport error or a server error. -/
def Answer.Transient : Answer → Prop
  | .transportError => True
  | .response reply => 500 ≤ reply.status

/-- The loop was left inside, with so many answers seen of which only the last counts. -/
structure Decided (answers : Nat → Answer) (convId : Option String) (attempt most : Nat) (run : Run) : Prop where
  begun : 1 ≤ run.sent
  few : run.sent ≤ most
  retried : ∀ i, i + 1 < run.sent → (answers (attempt + i)).Transient
  last : run.exit = .inside (outcome convId (answers (attempt + (run.sent - 1))))

variable {answers : Nat → Answer} {convId : Option String}

/-- One pass that ends the loop. -/
theorem decided_once {attempt most : Nat} (positive : 1 ≤ most) {result : Except Error Response}
    (here : result = outcome convId (answers attempt)) :
    Decided answers convId attempt most { exit := .inside result, sent := 1 } where
  begun := le_rfl
  few := positive
  retried := fun i early => absurd early (by simp)
  last := by rw [here]; rfl

/-- One pass that goes on. -/
theorem decided_again {attempt most : Nat} {later : Run} (transient : (answers attempt).Transient)
    (rest : Decided answers convId (attempt + 1) most later) :
    Decided answers convId attempt (most + 1) later.resent where
  begun := Nat.le_add_left 1 later.sent
  few := Nat.succ_le_succ rest.few
  retried := by
    intro i early
    cases i with
    | zero => exact transient
    | succ i =>
        have before := rest.retried i (Nat.lt_of_succ_lt_succ early)
        rwa [Nat.add_right_comm] at before
  last := by
    have sent := rest.begun
    rw [Run.resent, rest.last, show attempt + 1 + (later.sent - 1) = attempt + (later.sent + 1 - 1) by omega]

/-- A step of the loop, and from it a whole run. -/
theorem loop_decided (convId : Option String) {attempts left attempt : Nat} (enough : attempt + left = attempts)
    (positive : 1 ≤ left) : Decided answers convId attempt left (loop answers convId attempts left attempt) := by
  induction left generalizing attempt with
  | zero => exact absurd positive (by simp)
  | succ left ih =>
      rw [loop]
      have again : attempt + 1 < attempts → Decided answers convId (attempt + 1) left
          (loop answers convId attempts left (attempt + 1)) := fun more => ih (by omega) (by omega)
      cases answer : answers attempt with
      | transportError =>
          simp only
          split
          · rename_i more
            exact decided_again (by rw [answer]; trivial) (again more)
          · exact decided_once positive (by rw [answer]; rfl)
      | response response =>
          simp only
          split
          · rename_i missing
            exact decided_once positive (by rw [answer, outcome, if_pos missing])
          rename_i found
          split
          · rename_i retry
            exact decided_again (by rw [answer]; exact retry.1) (again retry.2)
          split
          · rename_i failed
            exact decided_once positive (by rw [answer, outcome, if_neg found, if_pos failed])
          · rename_i fine
            exact decided_once positive (by rw [answer, outcome, if_neg found, if_neg fine])

/-- The attempts of the connector are this loop. -/
theorem attempts_loop (answers : Nat → Answer) (req : Request) (convId : Option String) (left attempt : Nat) :
    attempts answers req convId left attempt =
      ((loop answers convId (attempt + left) left attempt).exit.result,
        List.replicate (loop answers convId (attempt + left) left attempt).sent req) := by
  induction left generalizing attempt with
  | zero => rfl
  | succ left ih =>
      have more : attempt + 1 < attempt + (left + 1) ↔ left ≠ 0 := by omega
      have next := ih (attempt + 1)
      rw [show attempt + 1 + left = attempt + (left + 1) by omega] at next
      rw [attempts, loop, next]
      cases answers attempt with
      | transportError =>
          simp only [more]
          split <;> rfl
      | response response =>
          simp only [more]
          split
          · rfl
          split
          · rfl
          split <;> rfl

def Method.name : Method → String
  | .get => "GET"
  | .post => "POST"

theorem send_request (answers : Nat → Answer) (req : Request) (convId : Option String) :
    send answers req convId = ((request getRetries req.method.name answers convId).exit.result,
      List.replicate (request getRetries req.method.name answers convId).sent req) := by
  have same : attemptsFor getRetries req.method.name = if req.method = .get then getRetries else 1 := by
    cases req.method <;> rfl
  rw [request, same, send, attempts_loop, Nat.zero_add]

/-- However many attempts a read has: a write is sent once, a read again only after an
    answer that may pass, and the last answer decides. -/
theorem request_decided (answers : Nat → Answer) (convId : Option String) {retries : Nat} (positive : 1 ≤ retries)
    (method : String) :
    Decided answers convId 0 (if method = "GET" then retries else 1) (request retries method answers convId) := by
  have enough : 1 ≤ attemptsFor retries method := by
    unfold attemptsFor
    split
    · exact positive
    · exact le_rfl
  exact loop_decided convId (Nat.zero_add _) enough

/-- Nothing comes back at first, then a page. -/
def flaky : Nat → Answer
  | 0 => .transportError
  | _ => .response { status := 200, body := none }

theorem request_decided_flaky :
    (request 3 "GET" flaky none).sent = 2 ∧ Decided flaky none 0 3 (request 3 "GET" flaky none) :=
  ⟨by decide, request_decided flaky none (by decide) "GET"⟩

end Nipoto.Connectors
