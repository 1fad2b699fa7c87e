import Nipoto.Db.Settings
import Nipoto.General.Simulation

/-! # Sessions

`session_scope` of app/db/session.py under the calls of the settings repository. A
statement, a commit, a rollback or a close may fail where it is awaited, the task
may be cancelled there, and a commit may be applied although its reply is lost.
The settings machine, whose calls read and commit in one step, has the same runs.
-/

namespace Nipoto.Sessions

open Settings Transitions Simulation

/-- What a call does in its session, and what it needs after that. -/
inductive Statement where
  /-- `get` after a cache miss at `now`. -/
  | select (key : String) (now : Nat) (fallback : Json)
  /-- `set`. -/
  | upsert (key : String) (value : Json)

inductive Phase where
  | idle
  /-- The statement is awaited. -/
  | executing (stmt : Statement)
  /-- `session.commit()` is awaited. -/
  | committing (stmt : Statement) (row : Option Json)
  /-- The close of the session is awaited after the commit. -/
  | closing (stmt : Statement) (row : Option Json)
  /-- `session.rollback()` is awaited. -/
  | rollingBack (stmt : Statement)
  /-- The close is awaited with an exception on its way. -/
  | leaving (stmt : Statement)
  | returned (key : String) (value : Json)
  | written (key : String) (value : Json)
  | raised
  | cancelled

/-- The statement of the session that is open. -/
def Phase.session : Phase → Option Statement
  | .executing stmt | .committing stmt _ | .closing stmt _ | .rollingBack stmt | .leaving stmt => some stmt
  | _ => none

/-- How far a call has come, as its caller can tell. -/
inductive Progress where
  | idle
  | begun
  | returned (key : String) (value : Json)
  | written (key : String) (value : Json)

def Phase.progress : Phase → Progress
  | .idle => .idle
  | .returned key value => .returned key value
  | .written key value => .written key value
  | _ => .begun

/-- The same for a call of the settings machine. -/
def progress : Task → Progress
  | .idle => .idle
  | .returned key value => .returned key value
  | .written key value => .written key value
  | _ => .begun

structure Service where
  /-- `_engine` and `_sessionmaker` are there. -/
  engine : Bool
  clock : Nat
  rows : String → Option Json
  cache : String → Option (Nat × Json)
  phases : Nat → Phase

/-- How `session.commit()` ends. -/
inductive Commit where
  | done
  | refused
  /-- It is applied and raises. -/
  | lost

inductive Event where
  | tick (now : Nat)
  | initEngine
  | disposeEngine
  | getStart (task : Nat) (key : String) (default : Json)
  | setStart (task : Nat) (key : String) (value : Json)
  | execute (task : Nat) (ok : Bool)
  | commit (task : Nat) (outcome : Commit)
  | close (task : Nat) (ok : Bool)
  | rollback (task : Nat)
  | leave (task : Nat)
  /-- `CancelledError`, which no handler of the repository catches. -/
  | cancel (task : Nat) (applied : Bool)
  /-- A write by another process. -/
  | writeRow (key : String) (value : Json)
  | deleteRow (key : String)

namespace Statement

variable (rows : String → Option Json)

def row : Statement → Option Json
  | .select key _ _ => rows key
  | .upsert _ _ => none

def apply : Statement → String → Option Json
  | .select _ _ _ => rows
  | .upsert key value => Function.update rows key (some value)

/-- `get` catches the exception, `set` does not. -/
def failed : Statement → Phase
  | .select key _ fallback => .returned key fallback
  | .upsert _ _ => .raised

end Statement

namespace Service

def setPhase (s : Service) (task : Nat) (next : Phase) : Service :=
  { s with phases := Function.update s.phases task next }

/-- The settings machine before any call. -/
def asSettings (s : Service) : State where
  clock := s.clock
  rows := s.rows
  cache := s.cache
  tasks := fun _ => .idle

/-- `get` up to its first await. -/
def lookup (s : Service) (task : Nat) (key : String) (default : Json) : Service :=
  match s.asSettings.hit key with
  | some value => s.setPhase task (.returned key value)
  | none =>
      let fallback := (defaults key).getD default
      if s.engine then s.setPhase task (.executing (.select key s.clock fallback))
      else s.setPhase task (.returned key fallback)

/-- What is left of a call when its session is closed. -/
def finish (s : Service) (task : Nat) (row : Option Json) : Statement → Service
  | .select key now fallback =>
      { s.setPhase task (.returned key (row.getD fallback)) with
        cache := Function.update s.cache key (some (now + ttl, row.getD fallback)) }
  | .upsert key value =>
      { s.setPhase task (.written key value) with cache := Function.update s.cache key none }

def step (s : Service) : Event → Option Service
  | .tick now => if s.clock ≤ now then some { s with clock := now } else none
  | .initEngine => some { s with engine := true }
  | .disposeEngine => some { s with engine := false }
  | .getStart task key default =>
      match s.phases task with
      | .idle => some (s.lookup task key default)
      | _ => none
  | .setStart task key value =>
      match s.phases task with
      | .idle => some (s.setPhase task (if s.engine then .executing (.upsert key value) else .raised))
      | _ => none
  | .execute task ok =>
      match s.phases task with
      | .executing stmt => some (s.setPhase task (if ok then .committing stmt (stmt.row s.rows) else .rollingBack stmt))
      | _ => none
  | .commit task outcome =>
      match s.phases task with
      | .committing stmt row =>
          match outcome with
          | .done => some { s.setPhase task (.closing stmt row) with rows := stmt.apply s.rows }
          | .refused => some (s.setPhase task (.rollingBack stmt))
          | .lost => some { s.setPhase task (.rollingBack stmt) with rows := stmt.apply s.rows }
      | _ => none
  | .close task ok =>
      match s.phases task with
      | .closing stmt row => some (if ok then s.finish task row stmt else s.setPhase task stmt.failed)
      | _ => none
  | .rollback task =>
      match s.phases task with
      | .rollingBack stmt => some (s.setPhase task (.leaving stmt))
      | _ => none
  | .leave task =>
      match s.phases task with
      | .leaving stmt => some (s.setPhase task stmt.failed)
      | _ => none
  | .cancel task applied =>
      match s.phases task with
      | .committing stmt _ =>
          some { s.setPhase task .cancelled with rows := if applied then stmt.apply s.rows else s.rows }
      | .executing _ | .closing _ _ | .rollingBack _ | .leaving _ => some (s.setPhase task .cancelled)
      | _ => none
  | .writeRow key value => some { s with rows := Function.update s.rows key (some value) }
  | .deleteRow key => some { s with rows := Function.update s.rows key none }

end Service

inductive Takes (s : Service) : Event → Service → Prop
  | tick {now} (later : s.clock ≤ now) : Takes s (.tick now) { s with clock := now }
  | engine {e up} (switch : e = .initEngine ∨ e = .disposeEngine) : Takes s e { s with engine := up }
  | hit {task key default value} (idle : s.phases task = .idle) (found : s.asSettings.hit key = some value) :
      Takes s (.getStart task key default) (s.setPhase task (.returned key value))
  | opens {task key default} (idle : s.phases task = .idle) (missed : s.asSettings.hit key = none)
      (up : s.engine = true) : Takes s (.getStart task key default)
        (s.setPhase task (.executing (.select key s.clock ((defaults key).getD default))))
  | down {task key default} (idle : s.phases task = .idle) (missed : s.asSettings.hit key = none)
      (down : s.engine = false) : Takes s (.getStart task key default)
        (s.setPhase task (.returned key ((defaults key).getD default)))
  | setStart {task key value next} (idle : s.phases task = .idle)
      (begun : next = .executing (.upsert key value) ∨ next = .raised) :
      Takes s (.setStart task key value) (s.setPhase task next)
  | executed {task stmt} (awaited : s.phases task = .executing stmt) :
      Takes s (.execute task true) (s.setPhase task (.committing stmt (stmt.row s.rows)))
  | notExecuted {task stmt} (awaited : s.phases task = .executing stmt) :
      Takes s (.execute task false) (s.setPhase task (.rollingBack stmt))
  | committed {task stmt row} (awaited : s.phases task = .committing stmt row) :
      Takes s (.commit task .done) { s.setPhase task (.closing stmt row) with rows := stmt.apply s.rows }
  | refused {task stmt row} (awaited : s.phases task = .committing stmt row) :
      Takes s (.commit task .refused) (s.setPhase task (.rollingBack stmt))
  | lost {task stmt row} (awaited : s.phases task = .committing stmt row) :
      Takes s (.commit task .lost) { s.setPhase task (.rollingBack stmt) with rows := stmt.apply s.rows }
  | closed {task stmt row} (awaited : s.phases task = .closing stmt row) :
      Takes s (.close task true) (s.finish task row stmt)
  | notClosed {task stmt row} (awaited : s.phases task = .closing stmt row) :
      Takes s (.close task false) (s.setPhase task stmt.failed)
  | rolledBack {task stmt} (awaited : s.phases task = .rollingBack stmt) :
      Takes s (.rollback task) (s.setPhase task (.leaving stmt))
  | left {task stmt} (awaited : s.phases task = .leaving stmt) :
      Takes s (.leave task) (s.setPhase task stmt.failed)
  | cancelledCommit {task stmt row applied} (awaited : s.phases task = .committing stmt row) :
      Takes s (.cancel task applied)
        { s.setPhase task .cancelled with rows := if applied then stmt.apply s.rows else s.rows }
  | cancelled {task stmt applied} (awaited : ∀ stmt row, s.phases task ≠ .committing stmt row)
      (inSession : (s.phases task).session = some stmt) : Takes s (.cancel task applied) (s.setPhase task .cancelled)
  | writeRow {key value} : Takes s (.writeRow key value) { s with rows := Function.update s.rows key (some value) }
  | deleteRow {key} : Takes s (.deleteRow key) { s with rows := Function.update s.rows key none }

variable {s s' u : Service} {t t' : State} {e : Event} {rest : List Event}

theorem lookup_takes (idle : s.phases task = .idle) (key : String) (default : Json) :
    Takes s (.getStart task key default) (s.lookup task key default) := by
  unfold Service.lookup
  cases found : s.asSettings.hit key with
  | some value => exact .hit idle found
  | none =>
      cases up : s.engine with
      | true => exact .opens idle found up
      | false => exact .down idle found up

theorem step_takes (enabled : s.step e = some s') : Takes s e s' := by
  cases e with
  | tick now =>
      simp only [Service.step] at enabled
      split at enabled
      · rename_i later
        exact Option.some.inj enabled ▸ .tick later
      · cases enabled
  | initEngine => exact Option.some.inj enabled ▸ .engine (.inl rfl)
  | disposeEngine => exact Option.some.inj enabled ▸ .engine (.inr rfl)
  | getStart task key default =>
      cases now : s.phases task <;> simp only [Service.step, now, Option.some.injEq, reduceCtorEq] at enabled
      exact enabled ▸ lookup_takes now key default
  | setStart task key value =>
      cases now : s.phases task <;> simp only [Service.step, now, Option.some.injEq, reduceCtorEq] at enabled
      subst enabled
      exact .setStart now (by cases s.engine <;> simp)
  | execute task ok =>
      cases now : s.phases task <;> simp only [Service.step, now, Option.some.injEq, reduceCtorEq] at enabled
      cases ok with
      | true => exact enabled ▸ .executed now
      | false => exact enabled ▸ .notExecuted now
  | commit task outcome =>
      cases now : s.phases task <;> simp only [Service.step, now, reduceCtorEq] at enabled
      cases outcome with
      | done => exact Option.some.inj enabled ▸ .committed now
      | refused => exact Option.some.inj enabled ▸ .refused now
      | lost => exact Option.some.inj enabled ▸ .lost now
  | close task ok =>
      cases now : s.phases task <;> simp only [Service.step, now, Option.some.injEq, reduceCtorEq] at enabled
      cases ok with
      | true => exact enabled ▸ .closed now
      | false => exact enabled ▸ .notClosed now
  | rollback task =>
      cases now : s.phases task <;> simp only [Service.step, now, Option.some.injEq, reduceCtorEq] at enabled
      exact enabled ▸ .rolledBack now
  | leave task =>
      cases now : s.phases task <;> simp only [Service.step, now, Option.some.injEq, reduceCtorEq] at enabled
      exact enabled ▸ .left now
  | cancel task applied =>
      cases now : s.phases task <;> simp only [Service.step, now, Option.some.injEq, reduceCtorEq] at enabled
      case committing stmt row => exact enabled ▸ .cancelledCommit now
      all_goals exact enabled ▸ .cancelled (by simp [now]) (by rw [now]; rfl)
  | writeRow key value => exact Option.some.inj enabled ▸ .writeRow
  | deleteRow key => exact Option.some.inj enabled ▸ .deleteRow

/-- The session of the task is closed without an exception. -/
def Event.closes (task : Nat) : Event → Bool
  | .close other true => other = task
  | _ => false

/-- The call gets to what follows its session. A read that does not has read nothing. -/
def completes (task : Nat) (rest : List Event) : Bool := rest.any (Event.closes task)

/-- The task of the settings machine, in a run that goes on with `rest`. A call that
    raised may have come to any point. -/
def taskOf (rest : List Event) (k : Nat) : Phase → Option Task
  | .idle => some .idle
  | .executing (.select key now fallback) => some (.missed key now fallback)
  | .committing (.select key now fallback) row | .closing (.select key now fallback) row =>
      some (if completes k rest then .fetched key now (row.getD fallback) else .missed key now fallback)
  | .rollingBack (.select key now fallback) | .leaving (.select key now fallback) => some (.missed key now fallback)
  | .executing (.upsert key value) | .committing (.upsert key value) _ => some (.writing key value)
  | .closing (.upsert key value) _ => some (.committed key value)
  | .rollingBack (.upsert _ _) | .leaving (.upsert _ _) => none
  | .returned key value => some (.returned key value)
  | .written key value => some (.written key value)
  | .raised | .cancelled => none

/-- What an event stands for in the settings machine. -/
def means (s : Service) (e : Event) (rest : List Event) : List Action :=
  match e with
  | .tick now => [.tick now]
  | .initEngine | .disposeEngine => []
  | .getStart k key default =>
      .getStart k key default :: if (s.asSettings.hit key).isNone && !s.engine then [.getFail k] else []
  | .setStart k key value => [.setStart k key value]
  | .execute k ok =>
      match s.phases k with
      | .executing (.select _ _ _) => if ok && completes k rest then [.getRead k] else []
      | _ => []
  | .commit k outcome =>
      match s.phases k, outcome with
      | .committing (.upsert _ _) _, .done | .committing (.upsert _ _) _, .lost => [.setCommit k]
      | _, _ => []
  | .close k ok =>
      match s.phases k with
      | .closing (.select _ _ _) _ => if ok then [.getStore k] else [.getFail k]
      | _ => if ok then [.setInvalidate k] else []
  | .rollback _ => []
  | .leave k =>
      match s.phases k with
      | .leaving (.select _ _ _) => [.getFail k]
      | _ => []
  | .cancel k applied =>
      match s.phases k with
      | .committing (.upsert _ _) _ => if applied then [.setCommit k] else []
      | _ => []
  | .writeRow key value => [.writeRow key value]
  | .deleteRow key => [.deleteRow key]

/-- A task is the one that is known, or some one that has begun and not ended. -/
def Known : Option Task → Task → Prop
  | some known, task => task = known
  | none, task => progress task = .begun

structure Matches (rest : List Event) (s : Service) (t : State) : Prop where
  clock : t.clock = s.clock
  rows : t.rows = s.rows
  cache : t.cache = s.cache
  tasks : ∀ k, Known (taskOf rest k (s.phases k)) (t.tasks k)

theorem completes_cons (k : Nat) (e : Event) (rest : List Event) :
    completes k (e :: rest) = (e.closes k || completes k rest) := List.any_cons

/-- An event that does not complete a call leaves what is known of it. -/
theorem taskOf_cons {k : Nat} (other : e.closes k = false) (phase : Phase) : taskOf (e :: rest) k phase = taskOf rest k phase := by
  have same : completes k (e :: rest) = completes k rest := by rw [completes_cons, other, Bool.false_or]
  unfold taskOf
  rw [same]

/-- Past the point from where a session is closed without an exception. -/
def Phase.isOver : Phase → Bool
  | .rollingBack _ | .leaving _ | .returned _ _ | .written _ _ | .raised | .cancelled => true
  | _ => false

theorem failed_over (stmt : Statement) : stmt.failed.isOver = true := by cases stmt <;> rfl

theorem setPhase_over {k : Nat} (finished : (s.phases k).isOver = true) {j : Nat} {next : Phase}
    (stays : j = k → next.isOver = true) : ((s.setPhase j next).phases k).isOver = true := by
  by_cases same : k = j
  · subst same
    simpa [Service.setPhase] using stays rfl
  · simpa [Service.setPhase, same] using finished

theorem over_step {k : Nat} (finished : (s.phases k).isOver = true) (enabled : s.step e = some s') :
    e.closes k = false ∧ (s'.phases k).isOver = true := by
  have apart : ∀ {j phase}, s.phases j = phase → phase.isOver = false → j ≠ k := by
    rintro j phase here open' rfl
    rw [here, open'] at finished
    cases finished
  cases step_takes enabled with
  | tick | writeRow | deleteRow => exact ⟨rfl, finished⟩
  | engine switch => rcases switch with rfl | rfl <;> exact ⟨rfl, finished⟩
  | hit idle | opens idle | down idle | setStart idle =>
      exact ⟨rfl, setPhase_over finished fun same => absurd same (apart idle rfl)⟩
  | executed awaited | notExecuted awaited | refused awaited =>
      exact ⟨rfl, setPhase_over finished fun same => absurd same (apart awaited rfl)⟩
  | committed awaited | lost awaited | cancelledCommit awaited =>
      exact ⟨rfl, setPhase_over finished fun same => absurd same (apart awaited rfl)⟩
  | @closed j stmt row awaited =>
      have other := apart awaited rfl
      refine ⟨by simpa [Event.closes] using other, ?_⟩
      cases stmt <;> exact setPhase_over finished fun same => absurd same other
  | notClosed awaited => exact ⟨rfl, setPhase_over finished fun _ => failed_over _⟩
  | rolledBack awaited | cancelled awaited => exact ⟨rfl, setPhase_over finished fun _ => rfl⟩
  | left awaited => exact ⟨rfl, setPhase_over finished fun _ => failed_over _⟩

theorem over_completes {k : Nat} (finished : (s.phases k).isOver = true) (reached : runs Service.step s rest = some u) :
    completes k rest = false := by
  induction rest generalizing s with
  | nil => rfl
  | cons e rest ih =>
      obtain ⟨s', enabled, later⟩ := runs_cons reached
      obtain ⟨other, still⟩ := over_step finished enabled
      rw [completes_cons, other, ih still later]
      rfl

/-- A step for one task. -/
theorem Matches.next (matched : Matches (e :: rest) s t) {k : Nat} (other : ∀ j, j ≠ k → e.closes j = false)
    (clock : t'.clock = s'.clock) (rows : t'.rows = s'.rows) (cache : t'.cache = s'.cache)
    (phases : ∀ j, j ≠ k → s'.phases j = s.phases j) (tasks : ∀ j, j ≠ k → t'.tasks j = t.tasks j)
    (here : Known (taskOf rest k (s'.phases k)) (t'.tasks k)) : Matches rest s' t' := by
  refine ⟨clock, rows, cache, fun j => ?_⟩
  by_cases same : j = k
  · subst same
    exact here
  · rw [phases j same, tasks j same, ← taskOf_cons (other j same)]
    exact matched.tasks j

theorem Matches.stay (matched : Matches (e :: rest) s t) {k : Nat} {next : Phase}
    (other : ∀ j, j ≠ k → e.closes j = false) (here : Known (taskOf rest k next) (t.tasks k)) :
    Matches rest (s.setPhase k next) t := by
  refine matched.next other matched.clock matched.rows matched.cache (fun j apart => ?_) (fun _ _ => rfl) ?_
  · simp [Service.setPhase, apart]
  · simpa [Service.setPhase] using here

theorem Matches.set (matched : Matches (e :: rest) s t) {k : Nat} {next : Phase} {task : Task}
    (other : ∀ j, j ≠ k → e.closes j = false) (here : Known (taskOf rest k next) task) :
    Matches rest (s.setPhase k next) (t.setTask k task) := by
  refine matched.next other matched.clock matched.rows matched.cache (fun j apart => ?_) (fun j apart => ?_) ?_
  · simp [Service.setPhase, apart]
  · simp [State.setTask, apart]
  · simpa [Service.setPhase, State.setTask] using here

/-- A step of no task. -/
theorem Matches.elsewhere (matched : Matches (e :: rest) s t) (other : ∀ k, e.closes k = false)
    (clock : t'.clock = s'.clock) (rows : t'.rows = s'.rows) (cache : t'.cache = s'.cache)
    (phases : s'.phases = s.phases) (tasks : t'.tasks = t.tasks) : Matches rest s' t' := by
  refine ⟨clock, rows, cache, fun k => ?_⟩
  rw [phases, tasks, ← taskOf_cons (other k)]
  exact matched.tasks k

theorem Matches.task {k : Nat} {phase : Phase} {known : Task} (matched : Matches rest s t) (here : s.phases k = phase)
    (found : taskOf rest k phase = some known) : t.tasks k = known := by
  have place := matched.tasks k
  rwa [here, found] at place

/-- A task has come as far as the phase that it belongs to. -/
theorem known_progress {k : Nat} {phase : Phase} {task : Task} (place : Known (taskOf rest k phase) task) :
    progress task = phase.progress := by
  cases phase with
  | idle | returned | written => exact congrArg progress place
  | raised | cancelled => exact place
  | executing stmt | rollingBack stmt | leaving stmt =>
      cases stmt with
      | select => exact congrArg progress place
      | upsert => first | exact congrArg progress place | exact place
  | committing stmt row | closing stmt row =>
      cases stmt with
      | select => cases completed : completes k rest <;> simp_all [taskOf, Known, progress, Phase.progress]
      | upsert => exact congrArg progress place

theorem Matches.begun {k : Nat} {stmt : Statement} (matched : Matches rest s t)
    (inSession : (s.phases k).session = some stmt) : progress (t.tasks k) = .begun := by
  rw [known_progress (matched.tasks k)]
  cases phase : s.phases k <;> simp only [phase, Phase.session, reduceCtorEq] at inSession
  all_goals rfl

theorem Matches.hit (matched : Matches rest s t) (key : String) : t.hit key = s.asSettings.hit key := by
  simp only [State.hit, Service.asSettings, matched.cache, matched.clock]
  rfl

section

variable {k : Nat} {stmt : Statement} {row : Option Json}

theorem follow_getStart {key : String} {default : Json} (matched : Matches (.getStart k key default :: rest) s t)
    (idle : s.phases k = .idle) :
    ∃ t', runs State.step t (means s (.getStart k key default) rest) = some t' ∧
      Matches rest (s.lookup k key default) t' := by
  have begun : t.step (.getStart k key default) = some (t.lookup k key default) := by
    simp only [State.step, matched.task idle rfl]
  cases found : s.asSettings.hit key with
  | some value =>
      refine ⟨t.setTask k (.returned key value), ?_, ?_⟩
      · simp only [means, found, Option.isNone_some, Bool.false_and, Bool.false_eq_true, if_false]
        simpa only [State.lookup, matched.hit, found] using runs_one begun
      · simp only [Service.lookup, found]
        exact matched.set (fun _ _ => rfl) rfl
  | none =>
      generalize fallbackIs : (defaults key).getD default = fallback
      have missed : t.lookup k key default = t.setTask k (.missed key s.clock fallback) := by
        simp only [State.lookup, matched.hit, found, matched.clock, fallbackIs]
      rw [missed] at begun
      cases up : s.engine with
      | true =>
          refine ⟨t.setTask k (.missed key s.clock fallback), ?_, ?_⟩
          · simp only [means, found, up, Option.isNone_none, Bool.not_true, Bool.and_false, Bool.false_eq_true, if_false]
            exact runs_one begun
          · simp only [Service.lookup, found, up, if_true, fallbackIs]
            exact matched.set (fun _ _ => rfl) rfl
      | false =>
          have failed : (t.setTask k (.missed key s.clock fallback)).step (.getFail k) =
              some (t.setTask k (.returned key fallback)) := by
            simp [State.step, State.setTask]
          refine ⟨t.setTask k (.returned key fallback), ?_, ?_⟩
          · simp only [means, found, up, Option.isNone_none, Bool.not_false, Bool.and_self, if_true]
            exact runs_trans (runs_one begun) (runs_one failed)
          · simp only [Service.lookup, found, up, Bool.false_eq_true, if_false, fallbackIs]
            exact matched.set (fun _ _ => rfl) rfl

theorem follow_executed (matched : Matches (.execute k true :: rest) s t) (awaited : s.phases k = .executing stmt) :
    ∃ t', runs State.step t (means s (.execute k true) rest) = some t' ∧
      Matches rest (s.setPhase k (.committing stmt (stmt.row s.rows))) t' := by
  cases stmt with
  | upsert key value =>
      refine ⟨t, by simp only [means, awaited, runs], matched.stay (fun _ _ => rfl) ?_⟩
      exact matched.task awaited rfl
  | select key now fallback =>
      have missed : t.tasks k = .missed key now fallback := matched.task awaited rfl
      cases completed : completes k rest with
      | true =>
          refine ⟨t.setTask k (.fetched key now ((t.rows key).getD fallback)), ?_, ?_⟩
          · simp only [means, awaited, completed, Bool.and_self, if_true]
            exact runs_one (by simp only [State.step, missed])
          · refine matched.set (fun _ _ => rfl) ?_
            simp only [taskOf, completed, if_true, Known]
            rw [matched.rows]
            rfl
      | false =>
          refine ⟨t, ?_, ?_⟩
          · simp only [means, awaited, completed, Bool.and_false, Bool.false_eq_true, if_false, runs]
          · refine matched.stay (fun _ _ => rfl) ?_
            simp only [taskOf, completed, Bool.false_eq_true, if_false, Known]
            exact missed

theorem missed_of_session {key : String} {now : Nat} {fallback : Json} (matched : Matches rest s t)
    (inSession : (s.phases k).session = some (.select key now fallback)) (never : completes k rest = false) :
    t.tasks k = .missed key now fallback := by
  cases phase : s.phases k <;> simp only [phase, Phase.session, Option.some.injEq, reduceCtorEq] at inSession
  all_goals exact matched.task phase (by simp [inSession, taskOf, never])

/-- What the exception of a call stands for. -/
def failure (k : Nat) : Statement → List Action
  | .select _ _ _ => [.getFail k]
  | .upsert _ _ => []

theorem follow_failed (matched : Matches (e :: rest) s t) (inSession : (s.phases k).session = some stmt)
    (other : ∀ j, e.closes j = false) (never : completes k rest = false) :
    ∃ t', runs State.step t (failure k stmt) = some t' ∧ Matches rest (s.setPhase k stmt.failed) t' := by
  cases stmt with
  | upsert key value =>
      exact ⟨t, rfl, matched.stay (fun j _ => other j) (matched.begun inSession)⟩
  | select key now fallback =>
      have missed : t.tasks k = .missed key now fallback :=
        missed_of_session matched inSession (by rw [completes_cons, other, never]; rfl)
      refine ⟨t.setTask k (.returned key fallback), ?_, ?_⟩
      · exact runs_one (by simp only [State.step, missed])
      · exact matched.set (fun j _ => other j) rfl

/-- The session goes on to its rollback. -/
theorem follow_stopped (matched : Matches (e :: rest) s t) (inSession : (s.phases k).session = some stmt)
    (other : ∀ j, e.closes j = false) (never : completes k rest = false) {next : Phase}
    (stopped : next = .rollingBack stmt ∨ next = .leaving stmt) : Matches rest (s.setPhase k next) t := by
  refine matched.stay (fun j _ => other j) ?_
  cases stmt with
  | upsert key value => rcases stopped with rfl | rfl <;> exact matched.begun inSession
  | select key now fallback =>
      have missed : t.tasks k = .missed key now fallback :=
        missed_of_session matched inSession (by rw [completes_cons, other, never]; rfl)
      rcases stopped with rfl | rfl <;> exact missed

theorem follow_applied {key : String} {value : Json} (matched : Matches (e :: rest) s t)
    (awaited : s.phases k = .committing (.upsert key value) row) (other : ∀ j, e.closes j = false) {next : Phase}
    (here : Known (taskOf rest k next) (.committed key value)) :
    ∃ t', runs State.step t [.setCommit k] = some t' ∧
      Matches rest { s.setPhase k next with rows := (Statement.upsert key value).apply s.rows } t' := by
  have writing : t.tasks k = .writing key value := matched.task awaited rfl
  refine ⟨t.commit k key value, runs_one (by simp only [State.step, writing]), ?_⟩
  refine matched.next (k := k) (fun j _ => other j) matched.clock ?_ matched.cache (fun j apart => ?_) (fun j apart => ?_) ?_
  · simp only [State.commit, Statement.apply, matched.rows]
  · simp [Service.setPhase, apart]
  · simp [State.commit, State.setTask, apart]
  · simpa [Service.setPhase, State.commit, State.setTask] using here

theorem follow_closed (matched : Matches (.close k true :: rest) s t) (awaited : s.phases k = .closing stmt row) :
    ∃ t', runs State.step t (means s (.close k true) rest) = some t' ∧ Matches rest (s.finish k row stmt) t' := by
  have other : ∀ j, j ≠ k → (Event.close k true).closes j = false := fun j apart => by
    simpa [Event.closes] using Ne.symm apart
  cases stmt with
  | select key now fallback =>
      have fetched : t.tasks k = .fetched key now (row.getD fallback) :=
        matched.task awaited (by simp [taskOf, completes_cons, Event.closes])
      refine ⟨t.store k key now (row.getD fallback), ?_, ?_⟩
      · simp only [means, awaited, if_true]
        exact runs_one (by simp only [State.step, fetched])
      · refine matched.next other matched.clock matched.rows ?_ (fun j apart => ?_) (fun j apart => ?_) ?_
        · simp only [State.store, Service.finish, matched.cache]
        · simp [Service.finish, Service.setPhase, apart]
        · simp [State.store, State.setTask, apart]
        · simp [Service.finish, Service.setPhase, State.store, State.setTask, taskOf, Known]
  | upsert key value =>
      have committed : t.tasks k = .committed key value := matched.task awaited rfl
      refine ⟨t.invalidate k key value, ?_, ?_⟩
      · simp only [means, awaited, if_true]
        exact runs_one (by simp only [State.step, committed])
      · refine matched.next other matched.clock matched.rows ?_ (fun j apart => ?_) (fun j apart => ?_) ?_
        · simp only [State.invalidate, Service.finish, matched.cache]
        · simp [Service.finish, Service.setPhase, apart]
        · simp [State.invalidate, State.setTask, apart]
        · simp [Service.finish, Service.setPhase, State.invalidate, State.setTask, taskOf, Known]

theorem setPhase_here (s : Service) (k : Nat) (next : Phase) : (s.setPhase k next).phases k = next := by
  simp [Service.setPhase]

theorem follow_commit {outcome : Commit} (matched : Matches (.commit k outcome :: rest) s t)
    (awaited : s.phases k = .committing stmt row) (enabled : s.step (.commit k outcome) = some s')
    (later : runs Service.step s' rest = some u) :
    ∃ t', runs State.step t (means s (.commit k outcome) rest) = some t' ∧ Matches rest s' t' := by
  have other : ∀ j, (Event.commit k outcome).closes j = false := fun _ => rfl
  have inSession : (s.phases k).session = some stmt := by rw [awaited]; rfl
  simp only [Service.step, awaited] at enabled
  cases outcome with
  | refused =>
      obtain rfl := Option.some.inj enabled
      have never := over_completes (k := k) (by rw [setPhase_here]; rfl) later
      refine ⟨t, ?_, follow_stopped matched inSession other never (.inl rfl)⟩
      cases stmt <;> simp only [means, awaited, runs]
  | done =>
      obtain rfl := Option.some.inj enabled
      cases stmt with
      | select key now fallback =>
          have place := matched.tasks k
          rw [awaited, taskOf_cons (other k)] at place
          exact ⟨t, by simp only [means, awaited, runs], matched.stay (fun j _ => other j) place⟩
      | upsert key value =>
          simp only [means, awaited]
          exact follow_applied matched awaited other rfl
  | lost =>
      obtain rfl := Option.some.inj enabled
      cases stmt with
      | select key now fallback =>
          have never := over_completes (k := k) (by simp [Service.setPhase, Phase.isOver]) later
          exact ⟨t, by simp only [means, awaited, runs], follow_stopped matched inSession other never (.inl rfl)⟩
      | upsert key value =>
          simp only [means, awaited]
          exact follow_applied matched awaited other rfl

theorem follow_cancelled {applied : Bool} (matched : Matches (.cancel k applied :: rest) s t)
    (awaited : s.phases k = .committing stmt row) :
    ∃ t', runs State.step t (means s (.cancel k applied) rest) = some t' ∧
      Matches rest { s.setPhase k .cancelled with rows := if applied then stmt.apply s.rows else s.rows } t' := by
  have inSession : (s.phases k).session = some stmt := by rw [awaited]; rfl
  have gone : Matches rest (s.setPhase k .cancelled) t := matched.stay (fun _ _ => rfl) (matched.begun inSession)
  cases applied with
  | false => exact ⟨t, by cases stmt <;> simp [means, awaited, runs], gone⟩
  | true =>
      cases stmt with
      | select key now fallback => exact ⟨t, by simp only [means, awaited, runs], gone⟩
      | upsert key value =>
          simp only [means, awaited, if_true]
          exact follow_applied matched awaited (fun _ => rfl) rfl

end

theorem follow (matched : Matches (e :: rest) s t) (enabled : s.step e = some s')
    (later : runs Service.step s' rest = some u) :
    ∃ t', runs State.step t (means s e rest) = some t' ∧ Matches rest s' t' := by
  cases step_takes enabled with
  | tick forward =>
      refine ⟨_, runs_one (if_pos (matched.clock ▸ forward)), ?_⟩
      exact matched.elsewhere (fun _ => rfl) rfl matched.rows matched.cache rfl rfl
  | engine switch =>
      refine ⟨t, by rcases switch with rfl | rfl <;> rfl, ?_⟩
      exact matched.elsewhere (by rcases switch with rfl | rfl <;> exact fun _ => rfl) matched.clock matched.rows
        matched.cache rfl rfl
  | writeRow =>
      refine ⟨_, runs_one rfl, matched.elsewhere (fun _ => rfl) matched.clock ?_ matched.cache rfl rfl⟩
      simp only [matched.rows]
  | deleteRow =>
      refine ⟨_, runs_one rfl, matched.elsewhere (fun _ => rfl) matched.clock ?_ matched.cache rfl rfl⟩
      simp only [matched.rows]
  | hit idle | opens idle | down idle =>
      simp only [Service.step, idle] at enabled
      exact Option.some.inj enabled ▸ follow_getStart matched idle
  | @setStart k key value next idle begun =>
      have started : t.step (.setStart k key value) = some (t.setTask k (.writing key value)) := by
        simp only [State.step, matched.task idle rfl]
      refine ⟨_, runs_one started, matched.set (fun _ _ => rfl) ?_⟩
      rcases begun with rfl | rfl <;> rfl
  | executed awaited => exact follow_executed matched awaited
  | @notExecuted k stmt awaited =>
      have never := over_completes (k := k) (by rw [setPhase_here]; rfl) later
      refine ⟨t, ?_, follow_stopped matched (by rw [awaited]; rfl) (fun _ => rfl) never (.inl rfl)⟩
      cases stmt <;> simp [means, awaited, runs]
  | committed awaited | refused awaited | lost awaited => exact follow_commit matched awaited enabled later
  | closed awaited => exact follow_closed matched awaited
  | @notClosed k stmt row awaited =>
      have never := over_completes (k := k) (by rw [setPhase_here]; exact failed_over stmt) later
      have inSession : (s.phases k).session = some stmt := by rw [awaited]; rfl
      obtain ⟨t', reached, next⟩ := follow_failed matched inSession (fun _ => rfl) never
      refine ⟨t', ?_, next⟩
      cases stmt <;> simpa [means, awaited, failure] using reached
  | @rolledBack k stmt awaited =>
      have never := over_completes (k := k) (by rw [setPhase_here]; rfl) later
      exact ⟨t, rfl, follow_stopped matched (by rw [awaited]; rfl) (fun _ => rfl) never (.inr rfl)⟩
  | @left k stmt awaited =>
      have never := over_completes (k := k) (by rw [setPhase_here]; exact failed_over stmt) later
      have inSession : (s.phases k).session = some stmt := by rw [awaited]; rfl
      obtain ⟨t', reached, next⟩ := follow_failed matched inSession (fun _ => rfl) never
      refine ⟨t', ?_, next⟩
      cases stmt <;> simpa [means, awaited, failure] using reached
  | cancelledCommit awaited => exact follow_cancelled matched awaited
  | @cancelled k stmt applied other inSession =>
      refine ⟨t, ?_, matched.stay (fun _ _ => rfl) (matched.begun inSession)⟩
      simp only [means]
      split
      next key value row here => exact absurd here (other _ _)
      next => rfl

theorem simulates : Simulates Service.step State.step means Matches := ⟨follow⟩

/-- The service as it starts: no call yet and nothing cached. -/
structure Begun (s : Service) : Prop where
  idle : ∀ k, s.phases k = .idle
  cold : ∀ key, s.cache key = none

/-- The same time, table and cache, and the same calls: those that have not begun, those
    that have returned and those that have written, with the same values. -/
structure Agrees (s : Service) (t : State) : Prop where
  clock : t.clock = s.clock
  rows : t.rows = s.rows
  cache : t.cache = s.cache
  calls : ∀ k, progress (t.tasks k) = (s.phases k).progress

theorem matches_begun (begun : Begun s) (rest : List Event) : Matches rest s s.asSettings := by
  refine ⟨rfl, rfl, rfl, fun k => ?_⟩
  rw [begun.idle k]
  rfl

theorem agrees_of_matches (matched : Matches [] s t) : Agrees s t where
  clock := matched.clock
  rows := matched.rows
  cache := matched.cache
  calls := fun k => known_progress (matched.tasks k)

/-- Whatever fails, is lost or is cancelled in a session, the run is one of the settings machine. -/
theorem sessions_refine {events : List Event} (begun : Begun s) (reached : runs Service.step s events = some u) :
    ∃ t, runs State.step s.asSettings (translate Service.step means s events) = some t ∧ Agrees u t := by
  obtain ⟨t, above, matched⟩ := runs_simulated simulates (matches_begun begun events) reached
  exact ⟨t, above, agrees_of_matches matched⟩

/-- The table says `shadow` and nobody has asked yet. -/
def quiet : Service where
  engine := true
  clock := 0
  rows := Function.update (fun _ => none) autoModeKey (some (.str "shadow"))
  cache := fun _ => none
  phases := fun _ => .idle

/-- A read fails after it has found its row, a write raises although it was applied, and
    a second read sees it. -/
def troubled : List Event :=
  [.getStart 0 autoModeKey .null, .execute 0 true, .setStart 1 autoModeKey (.str "off"), .execute 1 true,
    .commit 0 .refused, .commit 1 .lost, .rollback 0, .rollback 1, .leave 1, .getStart 2 autoModeKey .null,
    .leave 0, .execute 2 true, .commit 2 .done, .close 2 true]

theorem sessions_refine_troubled :
    ∃ u, runs Service.step quiet troubled = some u ∧ u.phases 2 = .returned autoModeKey (.str "off") ∧
      ∃ t, runs State.step quiet.asSettings (translate Service.step means quiet troubled) = some t ∧ Agrees u t :=
  ⟨_, rfl, rfl, sessions_refine ⟨fun _ => rfl, fun _ => rfl⟩ rfl⟩

end Nipoto.Sessions
