import Mathlib.Data.List.Nodup
import Nipoto.General.Machine
import Nipoto.General.Transitions

/-! # Calls over an unreliable network

Any number of callers send requests to one server. A request may arrive at any
time after it was sent, also when its caller has given up, or never; its reply
may be heard later or never. The network delivers no request twice.
-/

namespace Nipoto.Delivery

/-- What a caller does. It goes on after what it hears of an attempt, `none` for a
    failure of the network, or it is done; the last attempt ends it. -/
structure Protocol (C Q R O : Type) where
  request : C → Q
  attempts : C → Nat
  react : C → Nat → Option R → Option O
  begins : ∀ call, 0 < attempts call
  stops : ∀ call attempt heard, attempts call ≤ attempt + 1 → (react call attempt heard).isSome

/-- A call, what its caller has heard of each attempt, and its outcome. -/
structure Caller (C R O : Type) where
  call : C
  heard : List (Option R) := []
  outcome : Option O := none

/-- One attempt of one caller. -/
@[ext] structure Ticket where
  caller : Nat
  attempt : Nat
  deriving DecidableEq, Repr

structure Served (C R : Type) where
  ticket : Ticket
  call : C
  reply : R

/-- The server, the callers in the order of their calls, and what was served so far. -/
structure State (C R O S : Type) where
  server : S
  callers : List (Caller C R O) := []
  served : List (Served C R) := []

inductive Action (C : Type) where
  | call (call : C)
  /-- A request that was sent arrives at the server. -/
  | serve (ticket : Ticket)
  /-- The reply to the last attempt is heard. -/
  | reply (caller : Nat)
  /-- The last attempt fails for its caller. -/
  | fail (caller : Nat)

section

variable {C Q R O S : Type}

/-- The number of requests that were sent. -/
def Caller.sent (caller : Caller C R O) : Nat :=
  caller.heard.length + if caller.outcome.isNone then 1 else 0

variable (p : Protocol C Q R O)

def Caller.hear (caller : Caller C R O) (heard : Option R) : Caller C R O :=
  { caller with
    heard := caller.heard ++ [heard]
    outcome := p.react caller.call caller.heard.length heard }

namespace State

def reached (s : State C R O S) (ticket : Ticket) : Option (Served C R) :=
  s.served.find? (·.ticket = ticket)

/-- A caller that waits hears of its last attempt. -/
def hear (s : State C R O S) (k : Nat) (heard : Caller C R O → Option (Option R)) :
    Option (State C R O S) :=
  s.callers[k]?.bind fun caller =>
    if caller.outcome.isSome then none
    else (heard caller).map fun answer => { s with callers := s.callers.set k (caller.hear p answer) }

end State

variable (serve : S → Q → R × S)

def step (s : State C R O S) : Action C → Option (State C R O S)
  | .call call => some { s with callers := s.callers ++ [{ call := call }] }
  | .serve ticket =>
      s.callers[ticket.caller]?.bind fun caller =>
        if caller.sent ≤ ticket.attempt ∨ (s.reached ticket).isSome then none
        else
          let answered := serve s.server (p.request caller.call)
          some { s with
            server := answered.2
            served := s.served ++ [{ ticket, call := caller.call, reply := answered.1 }] }
  | .reply k => s.hear p k fun caller =>
      (s.reached { caller := k, attempt := caller.heard.length }).map fun done => some done.reply
  | .fail k => s.hear p k fun _ => some none

inductive Effect (s : State C R O S) : Action C → State C R O S → Prop
  | called {call} : Effect s (.call call) { s with callers := s.callers ++ [{ call := call }] }
  | served {ticket caller} (known : s.callers[ticket.caller]? = some caller)
      (sent : ticket.attempt < caller.sent) (new : ∀ e ∈ s.served, e.ticket ≠ ticket) :
      Effect s (.serve ticket)
        { s with
          server := (serve s.server (p.request caller.call)).2
          served := s.served ++
            [{ ticket, call := caller.call, reply := (serve s.server (p.request caller.call)).1 }] }
  | heard {a k caller answer} (known : s.callers[k]? = some caller) (waits : caller.outcome = none)
      (truthful : ∀ reply, answer = some reply →
        ∃ e ∈ s.served, e.ticket = ⟨k, caller.heard.length⟩ ∧ e.reply = reply) :
      Effect s a { s with callers := s.callers.set k (caller.hear p answer) }

variable {p serve} {s t u : State C R O S} {a : Action C}

theorem reached_some {ticket : Ticket} {e : Served C R} (found : s.reached ticket = some e) :
    e ∈ s.served ∧ e.ticket = ticket := by
  refine ⟨List.mem_of_find?_eq_some found, ?_⟩
  simpa using List.find?_some found

theorem reached_none {ticket : Ticket} :
    (s.reached ticket).isSome = false ↔ ∀ e ∈ s.served, e.ticket ≠ ticket := by
  simp [State.reached]

theorem hear_effect {k : Nat} {heard : Caller C R O → Option (Option R)}
    (truthful : ∀ caller reply, heard caller = some (some reply) →
      ∃ e ∈ s.served, e.ticket = ⟨k, caller.heard.length⟩ ∧ e.reply = reply)
    (taken : s.hear p k heard = some t) : Effect p serve s a t := by
  obtain ⟨caller, known, rest⟩ := Option.bind_eq_some_iff.mp taken
  split at rest
  · cases rest
  rename_i waits
  obtain ⟨answer, told, rfl⟩ := Option.map_eq_some_iff.mp rest
  refine .heard known (by simpa using waits) ?_
  rintro reply rfl
  exact truthful caller reply told

theorem step_effect (taken : step p serve s a = some t) : Effect p serve s a t := by
  cases a with
  | call call =>
      obtain rfl := Option.some.inj taken
      exact .called
  | serve ticket =>
      obtain ⟨caller, known, rest⟩ := Option.bind_eq_some_iff.mp taken
      split at rest
      · cases rest
      rename_i fresh
      obtain ⟨sent, new⟩ := not_or.mp fresh
      obtain rfl := Option.some.inj rest
      exact .served known (Nat.lt_of_not_le sent) (reached_none.mp (by simpa using new))
  | reply k =>
      refine hear_effect ?_ taken
      intro caller reply told
      obtain ⟨e, found, same⟩ := Option.map_eq_some_iff.mp told
      obtain ⟨member, here⟩ := reached_some found
      exact ⟨e, member, here, Option.some.inj same⟩
  | fail k =>
      refine hear_effect ?_ taken
      intro caller reply told
      cases told

variable (p) in
/-- Nothing of what was heard ends the call. -/
def Undecided (call : C) (heard : List (Option R)) : Prop :=
  ∀ (i : Nat) answer, heard[i]? = some answer → p.react call i answer = none

variable (p) in
/-- The last thing that was heard ends the call. -/
def Settles (call : C) (heard : List (Option R)) (outcome : O) : Prop :=
  ∃ earlier last, heard = earlier ++ [last] ∧ Undecided p call earlier ∧
    p.react call earlier.length last = some outcome

variable (p) in
structure Follows (caller : Caller C R O) : Prop where
  waiting : caller.outcome = none → Undecided p caller.call caller.heard
  done : ∀ outcome, caller.outcome = some outcome → Settles p caller.call caller.heard outcome
  few : caller.sent ≤ p.attempts caller.call

variable (p) in
def State.requests (s : State C R O S) : List Q := s.served.map fun e => p.request e.call

variable (p serve) in
/-- The server was asked one request after the other, each of them sent by its caller
    and none twice, and callers have heard replies to their own attempts. -/
structure Consistent (start : S) (s : State C R O S) : Prop where
  server : s.server = Machine.run serve start (s.requests p)
  trace : Machine.answers serve start (s.requests p) = s.served.map fun e => (p.request e.call, e.reply)
  once : (s.served.map (·.ticket)).Nodup
  sent : ∀ e ∈ s.served, ∃ caller, s.callers[e.ticket.caller]? = some caller ∧
    caller.call = e.call ∧ e.ticket.attempt < caller.sent
  heard : ∀ (k : Nat) caller, s.callers[k]? = some caller → ∀ (i : Nat) reply,
    caller.heard[i]? = some (some reply) → ∃ e ∈ s.served, e.ticket = ⟨k, i⟩ ∧ e.reply = reply
  follows : ∀ (k : Nat) caller, s.callers[k]? = some caller → Follows p caller

variable {start : S}

@[simp] theorem hear_call (caller : Caller C R O) (answer : Option R) : (caller.hear p answer).call = caller.call := rfl

@[simp] theorem hear_heard (caller : Caller C R O) (answer : Option R) :
    (caller.hear p answer).heard = caller.heard ++ [answer] := rfl

theorem sent_waiting {caller : Caller C R O} (waits : caller.outcome = none) :
    caller.sent = caller.heard.length + 1 := by simp [Caller.sent, waits]

theorem sent_hear_le {caller : Caller C R O} (waits : caller.outcome = none) (answer : Option R) :
    caller.sent ≤ (caller.hear p answer).sent := by
  rw [sent_waiting waits, Caller.sent, hear_heard, List.length_append]
  exact Nat.le_add_right _ _

theorem follows_new (call : C) : Follows p ({ call := call } : Caller C R O) where
  waiting _ := by
    intro i answer heard
    simp at heard
  done := by
    intro outcome settled
    cases settled
  few := p.begins call

theorem follows_hear {caller : Caller C R O} (follows : Follows p caller) (waits : caller.outcome = none)
    (answer : Option R) : Follows p (caller.hear p answer) where
  waiting := by
    intro goesOn i heard here
    rw [hear_heard] at here
    cases Nat.lt_or_ge i caller.heard.length with
    | inl earlier =>
        rw [List.getElem?_append_left earlier] at here
        exact follows.waiting waits i heard here
    | inr later =>
        rw [List.getElem?_append_right later, List.getElem?_singleton] at here
        split at here
        · rename_i last
          obtain rfl := Option.some.inj here
          obtain rfl : i = caller.heard.length := by omega
          exact goesOn
        · cases here
  done outcome settled := ⟨caller.heard, answer, rfl, follows.waiting waits, settled⟩
  few := by
    have before := follows.few
    rw [sent_waiting waits] at before
    simp only [Caller.sent, hear_heard, List.length_append, List.length_singleton, hear_call]
    split
    · rename_i goesOn
      by_contra past
      have stopped := p.stops caller.call caller.heard.length answer (by omega)
      rw [Option.isNone_iff_eq_none] at goesOn
      exact absurd (goesOn ▸ stopped : (none : Option O).isSome) (by simp)
    · exact before

theorem consistent_start (start : S) : Consistent p serve start { server := start } where
  server := rfl
  trace := rfl
  once := List.nodup_nil
  sent := by simp
  heard := by simp
  follows := by simp

theorem consistent_called (ok : Consistent p serve start s) (call : C) :
    Consistent p serve start { s with callers := s.callers ++ [{ call := call }] } := by
  have old : ∀ {k : Nat} {caller}, (s.callers ++ [{ call := call }])[k]? = some caller →
      s.callers[k]? = some caller ∨ caller = { call := call } := by
    intro k caller here
    cases Nat.lt_or_ge k s.callers.length with
    | inl earlier => exact .inl (by rwa [List.getElem?_append_left earlier] at here)
    | inr later =>
        rw [List.getElem?_append_right later, List.getElem?_singleton] at here
        split at here
        · exact .inr (Option.some.inj here).symm
        · cases here
  refine { server := ok.server, trace := ok.trace, once := ok.once, sent := ?_, heard := ?_, follows := ?_ }
  · intro e member
    obtain ⟨caller, known, rest⟩ := ok.sent e member
    obtain ⟨below, -⟩ := List.getElem?_eq_some_iff.mp known
    exact ⟨caller, (List.getElem?_append_left below).trans known, rest⟩
  · intro k caller here i reply told
    cases old here with
    | inl before => exact ok.heard k caller before i reply told
    | inr new =>
        subst new
        cases told
  · intro k caller here
    cases old here with
    | inl before => exact ok.follows k caller before
    | inr new => exact new ▸ follows_new call

theorem consistent_served (ok : Consistent p serve start s) {ticket : Ticket} {caller : Caller C R O}
    (known : s.callers[ticket.caller]? = some caller) (sent : ticket.attempt < caller.sent)
    (new : ∀ e ∈ s.served, e.ticket ≠ ticket) :
    Consistent p serve start
      { s with
        server := (serve s.server (p.request caller.call)).2
        served := s.served ++
          [{ ticket, call := caller.call, reply := (serve s.server (p.request caller.call)).1 }] } := by
  refine { server := ?_, trace := ?_, once := ?_, sent := ?_, heard := ?_, follows := ok.follows }
  · simp only [State.requests, List.map_append, List.map_cons, List.map_nil, Machine.run_append]
    rw [show s.served.map (fun e => p.request e.call) = s.requests p from rfl, ← ok.server]
    rfl
  · simp only [State.requests, List.map_append, List.map_cons, List.map_nil, Machine.answers_append]
    rw [show s.served.map (fun e => p.request e.call) = s.requests p from rfl, ← ok.server, ok.trace]
    rfl
  · rw [List.map_append, List.nodup_append]
    refine ⟨ok.once, List.nodup_singleton ticket, ?_⟩
    intro a earlier b last same
    obtain ⟨e, member, rfl⟩ := List.mem_map.mp earlier
    exact new e member (same.trans (List.mem_singleton.mp last))
  · intro e member
    cases List.mem_append.mp member with
    | inl earlier => exact ok.sent e earlier
    | inr last =>
        obtain rfl := List.mem_singleton.mp last
        exact ⟨caller, known, rfl, sent⟩
  · intro k caller here i reply told
    obtain ⟨e, member, rest⟩ := ok.heard k caller here i reply told
    exact ⟨e, List.mem_append_left _ member, rest⟩

theorem consistent_heard (ok : Consistent p serve start s) {k : Nat} {caller : Caller C R O}
    {answer : Option R} (known : s.callers[k]? = some caller) (waits : caller.outcome = none)
    (truthful : ∀ reply, answer = some reply →
      ∃ e ∈ s.served, e.ticket = ⟨k, caller.heard.length⟩ ∧ e.reply = reply) :
    Consistent p serve start { s with callers := s.callers.set k (caller.hear p answer) } := by
  obtain ⟨below, -⟩ := List.getElem?_eq_some_iff.mp known
  have lookup : ∀ j, (s.callers.set k (caller.hear p answer))[j]? =
      if k = j then some (caller.hear p answer) else s.callers[j]? := by
    intro j
    rw [List.getElem?_set]
    split <;> rfl
  refine { server := ok.server, trace := ok.trace, once := ok.once, sent := ?_, heard := ?_, follows := ?_ }
  · intro e member
    obtain ⟨other, found, same, sent⟩ := ok.sent e member
    by_cases here : k = e.ticket.caller
    · subst here
      obtain rfl := Option.some.inj (known.symm.trans found)
      exact ⟨caller.hear p answer, by rw [lookup, if_pos rfl], same, sent.trans_le (sent_hear_le waits answer)⟩
    · exact ⟨other, by rw [lookup, if_neg here, found], same, sent⟩
  · intro j other found i reply told
    rw [lookup] at found
    split at found
    · rename_i here
      subst here
      obtain rfl := Option.some.inj found
      rw [hear_heard] at told
      cases Nat.lt_or_ge i caller.heard.length with
      | inl earlier =>
          rw [List.getElem?_append_left earlier] at told
          exact ok.heard k caller known i reply told
      | inr later =>
          rw [List.getElem?_append_right later, List.getElem?_singleton] at told
          split at told
          · obtain rfl : i = caller.heard.length := by omega
            exact truthful reply (Option.some.inj told)
          · cases told
    · exact ok.heard j other found i reply told
  · intro j other found
    rw [lookup] at found
    split at found
    · obtain rfl := Option.some.inj found
      exact follows_hear (ok.follows k caller known) waits answer
    · exact ok.follows j other found

theorem consistent_step (ok : Consistent p serve start s) (taken : step p serve s a = some t) :
    Consistent p serve start t := by
  cases step_effect taken with
  | called => exact consistent_called ok _
  | served known sent new => exact consistent_served ok known sent new
  | heard known waits truthful => exact consistent_heard ok known waits truthful

theorem runs_consistent {actions : List (Action C)} (ok : Consistent p serve start s)
    (reached : Transitions.runs (step p serve) s actions = some t) : Consistent p serve start t := by
  have kept := @Transitions.runs_history _ _ (step p serve) s t actions
    (fun _ t => Consistent p serve start t) [] ok fun past s a t ok taken => consistent_step ok taken
  exact kept reached

/-- What the server was asked for the sake of a caller. -/
def State.servedFor (s : State C R O S) (k : Nat) : List (Served C R) := s.served.filter (·.ticket.caller = k)

theorem attempts_distinct (once : (s.served.map (·.ticket)).Nodup) (k : Nat) :
    ((s.servedFor k).map (·.ticket.attempt)).Nodup := by
  have distinct : (s.servedFor k).Pairwise fun a b => a.ticket ≠ b.ticket :=
    (List.pairwise_map.mp once).sublist List.filter_sublist
  refine List.pairwise_map.mpr (distinct.imp_of_mem ?_)
  intro a b memberA memberB differ same
  have callerA := (List.mem_filter.mp memberA).2
  have callerB := (List.mem_filter.mp memberB).2
  simp only [decide_eq_true_eq] at callerA callerB
  exact differ (Ticket.ext (callerA.trans callerB.symm) same)

theorem servedFor_le (ok : Consistent p serve start s) {k : Nat} {caller : Caller C R O}
    (known : s.callers[k]? = some caller) : (s.servedFor k).length ≤ caller.sent := by
  have within : (s.servedFor k).map (·.ticket.attempt) ⊆ List.range caller.sent := by
    intro attempt member
    obtain ⟨e, here, rfl⟩ := List.mem_map.mp member
    obtain ⟨inLog, mine⟩ := List.mem_filter.mp here
    obtain ⟨other, found, -, sent⟩ := ok.sent e inLog
    rw [decide_eq_true_eq.mp mine] at found
    obtain rfl := Option.some.inj (known.symm.trans found)
    exact List.mem_range.mpr sent
  have few := (attempts_distinct ok.once k).length_le_of_subset within
  rwa [List.length_map, List.length_range] at few

theorem served_call (ok : Consistent p serve start s) {k : Nat} {caller : Caller C R O}
    (known : s.callers[k]? = some caller) {e : Served C R} (member : e ∈ s.served)
    (mine : e.ticket.caller = k) : e.call = caller.call := by
  obtain ⟨other, found, same, -⟩ := ok.sent e member
  rw [mine] at found
  obtain rfl := Option.some.inj (known.symm.trans found)
  exact same.symm

/-- A reply in the log is what the server answered in its state then. -/
theorem reply_of_split (ok : Consistent p serve start s) {e : Served C R} {before after : List (Served C R)}
    (split : s.served = before ++ e :: after) :
    e.reply = (serve (Machine.run serve start (before.map fun e => p.request e.call)) (p.request e.call)).1 := by
  have trace := ok.trace
  rw [State.requests, split, List.map_append, List.map_append, Machine.answers_append] at trace
  have lengths : (Machine.answers serve start (before.map fun e => p.request e.call)).length =
      (before.map fun e => (p.request e.call, e.reply)).length := by
    rw [← List.length_map Prod.fst, Machine.answers_inputs, List.length_map, List.length_map]
  obtain ⟨-, rest⟩ := List.append_inj trace lengths
  exact (congrArg Prod.snd (List.cons.inj rest).1).symm

/-- A call that is done has ended with the last thing it heard, and what it heard
    besides failures are replies of the server to its own attempts. -/
theorem done_served (ok : Consistent p serve start s) {k : Nat} {caller : Caller C R O}
    (known : s.callers[k]? = some caller) {outcome : O} (done : caller.outcome = some outcome) :
    ∃ earlier last, caller.heard = earlier ++ [last] ∧ p.react caller.call earlier.length last = some outcome ∧
      ∀ reply, last = some reply →
        ∃ e ∈ s.servedFor k, e.ticket.attempt = earlier.length ∧ e.call = caller.call ∧ e.reply = reply := by
  obtain ⟨earlier, last, heard, -, ended⟩ := (ok.follows k caller known).done outcome done
  refine ⟨earlier, last, heard, ended, ?_⟩
  rintro reply rfl
  obtain ⟨e, member, ticket, same⟩ := ok.heard k caller known earlier.length reply (by simp [heard])
  have mine : e.ticket.caller = k := congrArg Ticket.caller ticket
  exact ⟨e, List.mem_filter.mpr ⟨member, by simpa using mine⟩, congrArg Ticket.attempt ticket,
    served_call ok known member mine, same⟩

/-- Calls and the log only grow, and a call that is done stays as it is. -/
structure Later (s t : State C R O S) : Prop where
  served : s.served <+: t.served
  callers : ∀ (k : Nat) caller, s.callers[k]? = some caller →
    ∃ later, t.callers[k]? = some later ∧ later.call = caller.call ∧ (caller.outcome.isSome → later = caller)

theorem Later.refl (s : State C R O S) : Later s s where
  served := List.prefix_rfl
  callers := fun _ caller known => ⟨caller, known, rfl, fun _ => rfl⟩

theorem Later.trans (first : Later s t) (second : Later t u) : Later s u where
  served := first.served.trans second.served
  callers := by
    intro k caller known
    obtain ⟨middle, found, same, stays⟩ := first.callers k caller known
    obtain ⟨last, found', same', stays'⟩ := second.callers k middle found
    refine ⟨last, found', same'.trans same, ?_⟩
    intro done
    obtain rfl := stays done
    exact stays' done

theorem effect_later (effect : Effect p serve s a t) : Later s t := by
  cases effect with
  | called =>
      refine { served := List.prefix_rfl, callers := ?_ }
      intro k caller known
      obtain ⟨below, -⟩ := List.getElem?_eq_some_iff.mp known
      exact ⟨caller, (List.getElem?_append_left below).trans known, rfl, fun _ => rfl⟩
  | served known sent new =>
      exact { served := List.prefix_append _ _, callers := fun k caller known => ⟨caller, known, rfl, fun _ => rfl⟩ }
  | @heard _ k caller answer known waits truthful =>
      refine { served := List.prefix_rfl, callers := ?_ }
      intro j other found
      by_cases here : k = j
      · subst here
        obtain rfl := Option.some.inj (known.symm.trans found)
        obtain ⟨below, -⟩ := List.getElem?_eq_some_iff.mp known
        refine ⟨caller.hear p answer, by simp [below], rfl, ?_⟩
        intro done
        simp [waits] at done
      · exact ⟨other, by rw [List.getElem?_set_ne here, found], rfl, fun _ => rfl⟩

theorem runs_later {actions : List (Action C)} (reached : Transitions.runs (step p serve) s actions = some t) :
    Later s t := by
  have kept := @Transitions.runs_history _ _ (step p serve) s t actions
    (fun _ t => Later s t) [] (Later.refl s) fun _ _ _ _ later taken => later.trans (effect_later (step_effect taken))
  exact kept reached

/-- What was served before a call was made was served for other calls. -/
theorem served_before (ok : Consistent p serve start s) {e : Served C R} (member : e ∈ s.served) :
    e.ticket.caller < s.callers.length := by
  obtain ⟨caller, found, -⟩ := ok.sent e member
  exact (List.getElem?_eq_some_iff.mp found).1

end

end Nipoto.Delivery
