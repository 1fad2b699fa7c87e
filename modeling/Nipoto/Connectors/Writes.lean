import Nipoto.Connectors.Contained

/-! # What a write reports

The contract answers a write that was accepted with a 2xx status. `_request`
only rejects the statuses from 400 on, so a write that was redirected somewhere
else, or only announced, is reported as done.
-/

namespace Nipoto.Connectors

open Fallible

/-- 2xx. -/
def Accepted (status : Int) : Prop := 200 ≤ status ∧ status < 300

/-- The two writes report success only for a reply that accepts them. -/
structure ReportsAccepted (backend : HttpMainBackend) (reply : Response) : Prop where
  handoff : ∀ convId reason,
    Succeeds (backend.handoff (fun _ => .response reply) convId reason).1 → Accepted reply.status
  posted : ∀ convId text idemKey metadata,
    Succeeds (backend.postAssistantMessage (fun _ => .response reply) convId text idemKey metadata).1 →
      Accepted reply.status

variable (backend : HttpMainBackend) (reply : Response)

/-- A write that the backend answers goes on with the answer if its status is below 400. -/
theorem send_write (request : Request) (write : request.method = .post) (convId : Option String) :
    Succeeds (send (fun _ => .response reply) request convId).1 ↔ reply.status < 400 := by
  have decided : decisive request.method (fun _ => Answer.response reply) = .response reply := by
    rw [write]
    rfl
  rw [send_eq, decided]
  constructor
  · rintro ⟨response, ok⟩
    obtain ⟨same, fine⟩ := outcome_ok.mp ok
    obtain rfl := Answer.response.inj same
    exact fine
  · exact fun fine => ⟨reply, outcome_ok.mpr ⟨rfl, fine⟩⟩

theorem handoff_succeeds (convId reason : String) :
    Succeeds (backend.handoff (fun _ => .response reply) convId reason).1 ↔ reply.status < 400 := by
  rw [← send_write reply (backend.requestOf (.handoff convId reason)) rfl (some convId)]
  constructor
  · intro done
    obtain ⟨response, ok, -⟩ := succeeds_bind.mp done
    exact ⟨response, ok⟩
  · rintro ⟨response, ok⟩
    exact succeeds_bind.mpr ⟨response, ok, succeeds_ok ()⟩

theorem post_succeeds {convId text idemKey : String} {metadata : List (String × Json)}
    (posted : Succeeds (backend.postAssistantMessage (fun _ => .response reply) convId text idemKey metadata).1) :
    reply.status < 400 := by
  obtain ⟨response, ok, -⟩ := succeeds_bind.mp posted
  exact (send_write reply (backend.requestOf (.postAssistantMessage convId text idemKey metadata)) rfl (some convId)).mp
    ⟨response, ok⟩

/-- The writes report success rightly but for informational statuses and redirects. -/
theorem reportsAccepted_iff : ReportsAccepted backend reply ↔
    200 ≤ reply.status ∧ (reply.status < 300 ∨ 400 ≤ reply.status) := by
  constructor
  · intro reports
    by_cases done : reply.status < 400
    · have accepted := reports.handoff "" "" ((handoff_succeeds backend reply "" "").mpr done)
      exact ⟨accepted.1, .inl accepted.2⟩
    · exact ⟨by omega, .inr (by omega)⟩
  · rintro ⟨low, high⟩
    constructor
    · intro convId reason done
      have fine := (handoff_succeeds backend reply convId reason).mp done
      exact ⟨low, by omega⟩
    · intro convId text idemKey metadata posted
      have fine := post_succeeds backend reply posted
      exact ⟨low, by omega⟩

/-- A redirect to a login page. -/
theorem redirected_handoff_done :
    ¬ ∀ (backend : HttpMainBackend) (reply : Response), ReportsAccepted backend reply := by
  intro all
  have reports := all { requestId := none, fromisoformat := fun _ => none, isoformat := fun _ => "" }
    { status := 302, body := none }
  have accepted := reports.handoff "c_1001" "user_request" ⟨(), rfl⟩
  exact absurd accepted.2 (by decide)

end Nipoto.Connectors
