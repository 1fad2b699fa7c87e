import Nipoto.Db.Session

/-! # The settings machine in sessions

Every run of the settings machine is one of the service, with an engine that is
there: a failing read is a statement that raises, and a commit is not seen apart
from its statement. With the refinement, the two have the same outcomes.
-/

namespace Nipoto.Sessions

open Settings Transitions Simulation

/-- The events of an action. -/
def made (_ : State) (a : Action) (_ : List Action) : List Event :=
  match a with
  | .tick now => [.tick now]
  | .getStart k key default => [.getStart k key default]
  | .getRead k => [.execute k true, .commit k .done]
  | .getFail k => [.execute k false, .rollback k, .leave k]
  | .getStore k => [.close k true]
  | .setStart k key value => [.setStart k key value]
  | .setCommit k => [.execute k true, .commit k .done]
  | .setInvalidate k => [.close k true]
  | .writeRow key value => [.writeRow key value]
  | .deleteRow key => [.deleteRow key]

/-- Where a task is in its session. -/
def At : Task → Phase → Prop
  | .idle, phase => phase = .idle
  | .missed key now fallback, phase => phase = .executing (.select key now fallback)
  | .fetched key now value, phase => ∃ fallback row, phase = .closing (.select key now fallback) row ∧ row.getD fallback = value
  | .returned key value, phase => phase = .returned key value
  | .writing key value, phase => phase = .executing (.upsert key value)
  | .committed key value, phase => ∃ row, phase = .closing (.upsert key value) row
  | .written key value, phase => phase = .written key value

structure Realizes (_ : List Action) (t : State) (s : Service) : Prop where
  engine : s.engine = true
  clock : t.clock = s.clock
  rows : t.rows = s.rows
  cache : t.cache = s.cache
  tasks : ∀ k, At (t.tasks k) (s.phases k)

variable {s s' : Service} {t t' u : State} {a : Action} {rest : List Action} {k : Nat}

theorem Realizes.hit (realizes : Realizes rest t s) (key : String) : s.asSettings.hit key = t.hit key := by
  simp only [State.hit, Service.asSettings, realizes.cache, realizes.clock]
  rfl

theorem Realizes.at {task : Task} (realizes : Realizes rest t s) (here : t.tasks k = task) : At task (s.phases k) :=
  here ▸ realizes.tasks k

theorem Realizes.next {later : List Action} (realizes : Realizes rest t s) (engine : s'.engine = s.engine)
    (clock : t'.clock = s'.clock) (rows : t'.rows = s'.rows) (cache : t'.cache = s'.cache)
    (tasks : ∀ j, j ≠ k → t'.tasks j = t.tasks j) (phases : ∀ j, j ≠ k → s'.phases j = s.phases j)
    (here : At (t'.tasks k) (s'.phases k)) : Realizes later t' s' := by
  refine ⟨engine.trans realizes.engine, clock, rows, cache, fun j => ?_⟩
  by_cases same : j = k
  · subst same
    exact here
  · rw [tasks j same, phases j same]
    exact realizes.tasks j

theorem Realizes.set {later : List Action} (realizes : Realizes rest t s) {task : Task} {next : Phase}
    (here : At task next) : Realizes later (t.setTask k task) (s.setPhase k next) := by
  refine realizes.next (k := k) rfl realizes.clock realizes.rows realizes.cache (fun j apart => ?_) (fun j apart => ?_) ?_
  · simp [State.setTask, apart]
  · simp [Service.setPhase, apart]
  · simpa [State.setTask, Service.setPhase] using here

theorem setPhase_twice (s : Service) (k : Nat) (first second : Phase) :
    (s.setPhase k first).setPhase k second = s.setPhase k second := by
  simp [Service.setPhase]

/-- The statement and the commit of a session, one after the other. -/
theorem runs_commit {stmt : Statement} (awaited : s.phases k = .executing stmt) :
    runs Service.step s [.execute k true, .commit k .done] =
      some { s.setPhase k (.closing stmt (stmt.row s.rows)) with rows := stmt.apply s.rows } := by
  have executed : s.step (.execute k true) = some (s.setPhase k (.committing stmt (stmt.row s.rows))) := by
    simp only [Service.step, awaited, if_true]
  refine runs_trans (runs_one executed) (runs_one ?_)
  simp only [Service.step, setPhase_here, setPhase_twice]
  rfl

theorem runs_fail {stmt : Statement} (awaited : s.phases k = .executing stmt) :
    runs Service.step s [.execute k false, .rollback k, .leave k] = some (s.setPhase k stmt.failed) := by
  have executed : s.step (.execute k false) = some (s.setPhase k (.rollingBack stmt)) := by
    simp only [Service.step, awaited, Bool.false_eq_true, if_false]
  have rolledBack : (s.setPhase k (.rollingBack stmt)).step (.rollback k) = some (s.setPhase k (.leaving stmt)) := by
    simp only [Service.step, setPhase_here, setPhase_twice]
  have left : (s.setPhase k (.leaving stmt)).step (.leave k) = some (s.setPhase k stmt.failed) := by
    simp only [Service.step, setPhase_here, setPhase_twice]
  exact runs_trans (runs_one executed) (runs_trans (runs_one rolledBack) (runs_one left))

theorem lookup_realizes (realizes : Realizes rest t s) {later : List Action} (key : String) (default : Json) :
    Realizes later (t.lookup k key default) (s.lookup k key default) := by
  unfold State.lookup Service.lookup
  rw [realizes.hit]
  cases t.hit key with
  | some value => exact realizes.set rfl
  | none =>
      simp only [realizes.engine, if_true, ← realizes.clock]
      exact realizes.set rfl

theorem realize (realizes : Realizes (a :: rest) t s) (enabled : t.step a = some t') :
    ∃ s', runs Service.step s (made t a rest) = some s' ∧ Realizes rest t' s' := by
  cases step_moves enabled with
  | tick later =>
      refine ⟨_, runs_one (if_pos (realizes.clock ▸ later)), ?_⟩
      exact ⟨realizes.engine, rfl, realizes.rows, realizes.cache, realizes.tasks⟩
  | writeRow =>
      refine ⟨_, runs_one rfl, realizes.engine, realizes.clock, ?_, realizes.cache, realizes.tasks⟩
      simp only [realizes.rows]
  | deleteRow =>
      refine ⟨_, runs_one rfl, realizes.engine, realizes.clock, ?_, realizes.cache, realizes.tasks⟩
      simp only [realizes.rows]
  | @hit task key default _ _ idle | @miss task key default idle =>
      simp only [State.step, idle] at enabled
      rw [← Option.some.inj enabled]
      refine ⟨s.lookup task key default, runs_one ?_, lookup_realizes realizes key default⟩
      have here : s.phases task = .idle := realizes.at idle
      simp only [Service.step, here]
  | @read task key now fallback missed =>
      refine ⟨_, runs_commit (realizes.at missed), ?_⟩
      refine realizes.next (k := task) rfl realizes.clock realizes.rows realizes.cache (fun j apart => ?_)
        (fun j apart => ?_) ?_
      · simp [State.setTask, apart]
      · simp [Service.setPhase, apart]
      · simp [State.setTask, Service.setPhase, At, Statement.row, realizes.rows]
  | @fail task key now fallback missed =>
      exact ⟨_, runs_fail (realizes.at missed), realizes.set rfl⟩
  | @store task key now value fetched =>
      obtain ⟨fallback, row, closing, rfl⟩ := realizes.at fetched
      refine ⟨s.finish task row (.select key now fallback), runs_one ?_, ?_⟩
      · simp only [Service.step, closing, if_true]
      · refine realizes.next (k := task) rfl realizes.clock realizes.rows ?_ (fun j apart => ?_) (fun j apart => ?_) ?_
        · simp only [State.store, Service.finish, realizes.cache]
        · simp [State.store, State.setTask, apart]
        · simp [Service.finish, Service.setPhase, apart]
        · simp [State.store, State.setTask, Service.finish, Service.setPhase, At]
  | @start task key value idle =>
      have here : s.phases task = .idle := realizes.at idle
      refine ⟨s.setPhase task (.executing (.upsert key value)), runs_one ?_, realizes.set rfl⟩
      simp only [Service.step, here, realizes.engine, if_true]
  | @commit task key value writing =>
      refine ⟨_, runs_commit (realizes.at writing), ?_⟩
      refine realizes.next (k := task) rfl realizes.clock ?_ realizes.cache (fun j apart => ?_) (fun j apart => ?_) ?_
      · simp only [State.commit, Statement.apply, realizes.rows]
      · simp [State.commit, State.setTask, apart]
      · simp [Service.setPhase, apart]
      · simp [State.commit, State.setTask, Service.setPhase, At]
  | @invalidate task key value committed =>
      obtain ⟨row, closing⟩ := realizes.at committed
      refine ⟨s.finish task row (.upsert key value), runs_one ?_, ?_⟩
      · simp only [Service.step, closing, if_true]
      · refine realizes.next (k := task) rfl realizes.clock realizes.rows ?_ (fun j apart => ?_) (fun j apart => ?_) ?_
        · simp only [State.invalidate, Service.finish, realizes.cache]
        · simp [State.invalidate, State.setTask, apart]
        · simp [Service.finish, Service.setPhase, apart]
        · simp [State.invalidate, State.setTask, Service.finish, Service.setPhase, At]

theorem simulated : Simulates State.step Service.step made Realizes := ⟨fun realizes enabled _ => realize realizes enabled⟩

theorem at_progress {task : Task} {phase : Phase} (place : At task phase) : progress task = phase.progress := by
  cases task with
  | fetched key now value =>
      obtain ⟨fallback, row, rfl, -⟩ := place
      rfl
  | committed key value =>
      obtain ⟨row, rfl⟩ := place
      rfl
  | _ =>
      obtain rfl : phase = _ := place
      rfl

theorem agrees_of_realizes (realizes : Realizes rest t s) : Agrees s t where
  clock := realizes.clock
  rows := realizes.rows
  cache := realizes.cache
  calls := fun k => at_progress (realizes.tasks k)

/-- The service before any call, with an engine. -/
def served (t : State) : Service where
  engine := true
  clock := t.clock
  rows := t.rows
  cache := t.cache
  phases := fun _ => .idle

theorem settings_realized {actions : List Action} (started : Started t) (reached : runs State.step t actions = some u) :
    ∃ s, runs Service.step (served t) (translate State.step made t actions) = some s ∧ Agrees s u := by
  have begun : Realizes actions t (served t) := ⟨rfl, rfl, rfl, rfl, fun k => by rw [started.idle k]; rfl⟩
  obtain ⟨s, below, realizes⟩ := runs_simulated simulated begun reached
  exact ⟨s, below, agrees_of_realizes realizes⟩

/-- A failing read beside a write. -/
def failingRead : List Action :=
  [.getStart 0 autoModeKey .null, .setStart 1 autoModeKey (.str "off"), .setCommit 1, .getFail 0, .setInvalidate 1]

theorem settings_realized_failing :
    ∃ t, runs State.step quiet.asSettings failingRead = some t ∧
      ∃ s, runs Service.step (served quiet.asSettings) (translate State.step made quiet.asSettings failingRead) = some s ∧
        Agrees s t :=
  ⟨_, rfl, settings_realized ⟨fun _ => rfl, fun _ => rfl⟩ rfl⟩

end Nipoto.Sessions
