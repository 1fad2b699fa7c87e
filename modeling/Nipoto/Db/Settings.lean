import Mathlib.Logic.Function.Basic
import Nipoto.General.Json
import Nipoto.General.Transitions

/-! # Runtime settings

app/db/repositories/settings.py. Calls run as tasks that interleave where the
source awaits: a read is a cache lookup, a database read and a store in the
cache, a write is a commit and an invalidation. Each call has a task of its own.
-/

namespace Nipoto.Settings

/-- `SETTINGS_TTL_SECONDS`, in microseconds like every time here. -/
def ttl : Nat := 10000000

def autoModeKey : String := "auto_mode"

def autoModes : List String := ["off", "shadow", "live"]

def defaults (key : String) : Option Json := if key = autoModeKey then some (.str "shadow") else none

inductive Task where
  | idle
  /-- `get` after a cache miss at `now`. -/
  | missed (key : String) (now : Nat) (fallback : Json)
  /-- `get` after the database read. -/
  | fetched (key : String) (now : Nat) (value : Json)
  | returned (key : String) (value : Json)
  /-- `set` before the commit. -/
  | writing (key : String) (value : Json)
  /-- `set` before the invalidation. -/
  | committed (key : String) (value : Json)
  | written (key : String) (value : Json)

structure State where
  /-- `time.monotonic()`. -/
  clock : Nat
  /-- The values in the settings table. -/
  rows : String → Option Json
  /-- `_cache`: when an entry expires, and its value. -/
  cache : String → Option (Nat × Json)
  tasks : Nat → Task

inductive Action where
  | tick (now : Nat)
  | getStart (task : Nat) (key : String) (default : Json)
  | getRead (task : Nat)
  /-- The database read fails and the fallback is returned. -/
  | getFail (task : Nat)
  | getStore (task : Nat)
  | setStart (task : Nat) (key : String) (value : Json)
  | setCommit (task : Nat)
  | setInvalidate (task : Nat)
  /-- A write by another process. -/
  | writeRow (key : String) (value : Json)
  | deleteRow (key : String)

namespace State

def setTask (s : State) (task : Nat) (next : Task) : State :=
  { s with tasks := Function.update s.tasks task next }

/-- `cached and cached[0] > now`. -/
def hit (s : State) (key : String) : Option Json :=
  match s.cache key with
  | some (expires, value) => if s.clock < expires then some value else none
  | none => none

/-- `get` up to its first await. -/
def lookup (s : State) (task : Nat) (key : String) (default : Json) : State :=
  match s.hit key with
  | some value => s.setTask task (.returned key value)
  | none => s.setTask task (.missed key s.clock ((defaults key).getD default))

def store (s : State) (task : Nat) (key : String) (now : Nat) (value : Json) : State :=
  { s.setTask task (.returned key value) with cache := Function.update s.cache key (some (now + ttl, value)) }

def commit (s : State) (task : Nat) (key : String) (value : Json) : State :=
  { s.setTask task (.committed key value) with rows := Function.update s.rows key (some value) }

def invalidate (s : State) (task : Nat) (key : String) (value : Json) : State :=
  { s.setTask task (.written key value) with cache := Function.update s.cache key none }

def step (s : State) : Action → Option State
  | .tick now => if s.clock ≤ now then some { s with clock := now } else none
  | .getStart task key default =>
      match s.tasks task with
      | .idle => some (s.lookup task key default)
      | _ => none
  | .getRead task =>
      match s.tasks task with
      | .missed key now fallback => some (s.setTask task (.fetched key now ((s.rows key).getD fallback)))
      | _ => none
  | .getFail task =>
      match s.tasks task with
      | .missed key _ fallback => some (s.setTask task (.returned key fallback))
      | _ => none
  | .getStore task =>
      match s.tasks task with
      | .fetched key now value => some (s.store task key now value)
      | _ => none
  | .setStart task key value =>
      match s.tasks task with
      | .idle => some (s.setTask task (.writing key value))
      | _ => none
  | .setCommit task =>
      match s.tasks task with
      | .writing key value => some (s.commit task key value)
      | _ => none
  | .setInvalidate task =>
      match s.tasks task with
      | .committed key value => some (s.invalidate task key value)
      | _ => none
  | .writeRow key value => some { s with rows := Function.update s.rows key (some value) }
  | .deleteRow key => some { s with rows := Function.update s.rows key none }

end State

inductive Moves (s : State) : Action → State → Prop
  | tick {now} (later : s.clock ≤ now) : Moves s (.tick now) { s with clock := now }
  | hit {task key default expires value} (idle : s.tasks task = .idle)
      (found : s.cache key = some (expires, value)) (valid : s.clock < expires) :
      Moves s (.getStart task key default) (s.setTask task (.returned key value))
  | miss {task key default} (idle : s.tasks task = .idle) :
      Moves s (.getStart task key default)
        (s.setTask task (.missed key s.clock ((defaults key).getD default)))
  | read {task key now fallback} (missed : s.tasks task = .missed key now fallback) :
      Moves s (.getRead task) (s.setTask task (.fetched key now ((s.rows key).getD fallback)))
  | fail {task key now fallback} (missed : s.tasks task = .missed key now fallback) :
      Moves s (.getFail task) (s.setTask task (.returned key fallback))
  | store {task key now value} (fetched : s.tasks task = .fetched key now value) :
      Moves s (.getStore task) (s.store task key now value)
  | start {task key value} (idle : s.tasks task = .idle) :
      Moves s (.setStart task key value) (s.setTask task (.writing key value))
  | commit {task key value} (writing : s.tasks task = .writing key value) :
      Moves s (.setCommit task) (s.commit task key value)
  | invalidate {task key value} (committed : s.tasks task = .committed key value) :
      Moves s (.setInvalidate task) (s.invalidate task key value)
  | writeRow {key value} :
      Moves s (.writeRow key value) { s with rows := Function.update s.rows key (some value) }
  | deleteRow {key} : Moves s (.deleteRow key) { s with rows := Function.update s.rows key none }

theorem lookup_moves {s : State} {task : Nat} (idle : s.tasks task = .idle) (key : String) (default : Json) :
    Moves s (.getStart task key default) (s.lookup task key default) := by
  unfold State.lookup State.hit
  cases found : s.cache key with
  | none => exact .miss idle
  | some entry =>
      obtain ⟨expires, value⟩ := entry
      by_cases valid : s.clock < expires
      · simpa [valid] using Moves.hit idle found valid
      · simpa [valid] using Moves.miss idle

theorem step_moves {s t : State} {a : Action} (enabled : s.step a = some t) : Moves s a t := by
  cases a with
  | tick now =>
      simp only [State.step] at enabled
      split at enabled
      · rename_i later
        exact Option.some.inj enabled ▸ .tick later
      · exact absurd enabled (by simp)
  | getStart task key default =>
      cases now : s.tasks task <;> simp only [State.step, now, Option.some.injEq, reduceCtorEq] at enabled
      exact enabled ▸ lookup_moves now key default
  | getRead task =>
      cases now : s.tasks task <;> simp only [State.step, now, Option.some.injEq, reduceCtorEq] at enabled
      exact enabled ▸ .read now
  | getFail task =>
      cases now : s.tasks task <;> simp only [State.step, now, Option.some.injEq, reduceCtorEq] at enabled
      exact enabled ▸ .fail now
  | getStore task =>
      cases now : s.tasks task <;> simp only [State.step, now, Option.some.injEq, reduceCtorEq] at enabled
      exact enabled ▸ .store now
  | setStart task key value =>
      cases now : s.tasks task <;> simp only [State.step, now, Option.some.injEq, reduceCtorEq] at enabled
      exact enabled ▸ .start now
  | setCommit task =>
      cases now : s.tasks task <;> simp only [State.step, now, Option.some.injEq, reduceCtorEq] at enabled
      exact enabled ▸ .commit now
  | setInvalidate task =>
      cases now : s.tasks task <;> simp only [State.step, now, Option.some.injEq, reduceCtorEq] at enabled
      exact enabled ▸ .invalidate now
  | writeRow key value => exact Option.some.inj enabled ▸ .writeRow
  | deleteRow key => exact Option.some.inj enabled ▸ .deleteRow

/-- `auto_mode`, from what `get` returned. -/
def autoMode (value : Json) : String :=
  match value with
  | .str mode => if mode ∈ autoModes then mode else "shadow"
  | _ => "shadow"

/-- A process that has just started: no call yet and nothing cached. -/
structure Started (s : State) : Prop where
  idle : ∀ task, s.tasks task = .idle
  cold : ∀ key, s.cache key = none

/-- A call is writing `key`. -/
def State.Writes (s : State) (task : Nat) (key : String) : Prop :=
  ∃ value, s.tasks task = .writing key value ∨ s.tasks task = .committed key value

end Nipoto.Settings
