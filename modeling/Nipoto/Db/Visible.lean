import Nipoto.Db.Settings

/-! # When a write is visible at once

The invalidation removes what is cached, but not what a call has read and not yet
stored. A write is visible to all later calls just when no call holds an older
value that would still be valid in the cache.
-/

namespace Nipoto.Settings

open Transitions

/-- Actions of calls of this process whose database operations succeed. -/
def Internal : Action → Prop
  | .getFail _ => False
  | .writeRow _ _ => False
  | .deleteRow _ => False
  | _ => True

/-- No call starts to write `key`. -/
def NoWrite (key : String) : Action → Prop
  | .setStart _ other _ => other ≠ key
  | _ => True

/-- `task` has set `key` to `value`, no other write of the key overlapped it, and it is
    about to invalidate the cache in state `s`. -/
structure Commits (start s : State) (task : Nat) (key : String) (value : Json) : Prop where
  started : Started start
  run : ∃ before during s₀, runs State.step start before = some s₀ ∧
    runs State.step s₀ (.setStart task key value :: during) = some s ∧
    Throughout State.step (fun u => ∀ other ≠ task, ¬ u.Writes other key) s₀
      (.setStart task key value :: during) ∧
    ∀ a ∈ during, Internal a
  atEnd : s.tasks task = .committed key value

/-- Every `get` of the key that starts from here on and finishes before another write of
    the key starts returns `value`. -/
def Visible (s : State) (key : String) (value : Json) : Prop :=
  ∀ after t task found, (∀ a ∈ after, Internal a ∧ NoWrite key a) → runs State.step s after = some t →
    s.tasks task = .idle → t.tasks task = .returned key found →
      found = value ∧ (key = autoModeKey → value = .str "off" → autoMode found = "off")

/-- What a call has read of the key and not yet stored is `value`, or would already be
    expired. -/
def NoStaleReader (s : State) (key : String) (value : Json) : Prop :=
  ∀ task now found, s.tasks task = .fetched key now found → found = value ∨ now + ttl ≤ s.clock

variable {start s t : State} {task : Nat} {key : String} {value : Json}

@[simp] theorem setTask_tasks (s : State) (task : Nat) (next : Task) (other : Nat) :
    (s.setTask task next).tasks other = if other = task then next else s.tasks other := by
  simp [State.setTask, Function.update_apply]

@[simp] theorem store_tasks (s : State) (now other : Nat) :
    (s.store task key now value).tasks other = if other = task then .returned key value else s.tasks other :=
  setTask_tasks s task _ other

@[simp] theorem commit_tasks (s : State) (other : Nat) :
    (s.commit task key value).tasks other = if other = task then .committed key value else s.tasks other :=
  setTask_tasks s task _ other

@[simp] theorem invalidate_tasks (s : State) (other : Nat) :
    (s.invalidate task key value).tasks other = if other = task then .written key value else s.tasks other :=
  setTask_tasks s task _ other

@[simp] theorem commit_rows (s : State) (other : String) :
    (s.commit task key value).rows other = if other = key then some value else s.rows other := by
  simp [State.commit, Function.update_apply]

@[simp] theorem store_cache (s : State) (now : Nat) (other : String) :
    (s.store task key now value).cache other = if other = key then some (now + ttl, value) else s.cache other := by
  simp [State.store, Function.update_apply]

@[simp] theorem invalidate_cache (s : State) (other : String) :
    (s.invalidate task key value).cache other = if other = key then none else s.cache other := by
  simp [State.invalidate, Function.update_apply]

/-- Where a write of the key by `task` stands. -/
inductive Writing (u : State) (task : Nat) (key : String) (value : Json) : Prop
  | before (writing : u.tasks task = .writing key value)
  | between (committed : u.tasks task = .committed key value) (row : u.rows key = some value)
  | after (written : u.tasks task = .written key value)

/-- A call of `set`. -/
def Task.isSet : Task → Bool
  | .writing _ _ => true
  | .committed _ _ => true
  | .written _ _ => true
  | _ => false

theorem Writing.isSet (stage : Writing s task key value) : (s.tasks task).isSet = true := by
  cases stage with
  | before writing => rw [writing]; rfl
  | between committed => rw [committed]; rfl
  | after written => rw [written]; rfl

/-- An action of another task that leaves the row leaves the write where it is. -/
theorem writing_elsewhere (stage : Writing s task key value) (tasks : t.tasks task = s.tasks task)
    (row : t.rows key = s.rows key) : Writing t task key value := by
  cases stage with
  | before writing => exact .before (tasks.trans writing)
  | between committed here => exact .between (tasks.trans committed) (row.trans here)
  | after written => exact .after (tasks.trans written)

theorem writing_keeps {a : Action} (stage : Writing s task key value)
    (alone : ∀ other ≠ task, ¬ s.Writes other key) (internal : Internal a) (moves : Moves s a t) :
    Writing t task key value := by
  have away : ∀ {other : Nat} {now : Task}, s.tasks other = now → now.isSet = false → task ≠ other := by
    rintro other now here noSet rfl
    have isSet := stage.isSet
    rw [here, noSet] at isSet
    exact absurd isSet (by simp)
  cases moves with
  | tick => exact writing_elsewhere stage rfl rfl
  | hit idle => exact writing_elsewhere stage (by simp [away idle rfl]) rfl
  | miss idle => exact writing_elsewhere stage (by simp [away idle rfl]) rfl
  | start idle => exact writing_elsewhere stage (by simp [away idle rfl]) rfl
  | read missed => exact writing_elsewhere stage (by simp [away missed rfl]) rfl
  | fail => exact internal.elim
  | store fetched => exact writing_elsewhere stage (by simp [away fetched rfl]) rfl
  | @commit other otherKey otherValue writing =>
      by_cases same : task = other
      · subst same
        cases stage with
        | before mine =>
            rw [mine] at writing
            cases writing
            exact .between (by simp) (by simp)
        | between committed => rw [committed] at writing; cases writing
        | after written => rw [written] at writing; cases writing
      · have otherRow : otherKey ≠ key := by
          rintro rfl
          exact alone other (Ne.symm same) ⟨otherValue, .inl writing⟩
        exact writing_elsewhere stage (by simp [same]) (by simp [Ne.symm otherRow])
  | @invalidate other otherKey otherValue committed =>
      by_cases same : task = other
      · subst same
        cases stage with
        | before writing => rw [writing] at committed; cases committed
        | between mine =>
            rw [mine] at committed
            cases committed
            exact .after (by simp)
        | after written => rw [written] at committed; cases committed
      · exact writing_elsewhere stage (by simp [same]) rfl
  | writeRow => exact internal.elim
  | deleteRow => exact internal.elim

/-- At the invalidation the row has the value and nobody else writes the key. -/
theorem commits_row (commits : Commits start s task key value) :
    s.rows key = some value ∧ ∀ other ≠ task, ¬ s.Writes other key := by
  obtain ⟨before, during, s₀, -, ran, alone, internal⟩ := commits.run
  obtain ⟨u, enabled, rest⟩ := runs_cons ran
  have begun : Writing u task key value := by
    cases step_moves enabled with
    | start idle => exact .before (by simp)
  have stage : Writing s task key value :=
    runs_invariant (J := fun u => Writing u task key value) begun
      (fun _ _ _ stage alone internal enabled => writing_keeps stage alone internal (step_moves enabled))
      (throughout_tail alone enabled) internal rest
  refine ⟨?_, alone _ [] s (List.append_nil _).symm ran⟩
  cases stage with
  | before writing => rw [commits.atEnd] at writing; cases writing
  | between committed row => exact row
  | after written => rw [commits.atEnd] at written; cases written

/-- The row has the value and what is or will be cached is the value or expired. The
    calls of `young` find nothing else. -/
structure Settled (key : String) (value : Json) (young : Nat → Prop) (u : State) : Prop where
  row : u.rows key = some value
  cached : ∀ expires found, u.cache key = some (expires, found) → found = value ∨ expires ≤ u.clock
  fetched : NoStaleReader u key value
  alone : ∀ task, ¬ u.Writes task key
  youngFetched : ∀ task now found, young task → u.tasks task = .fetched key now found → found = value
  youngReturned : ∀ task found, young task → u.tasks task = .returned key found → found = value

variable {young : Nat → Prop}

/-- A task that moves on keeps this, if it does not read, return or write anything else. -/
theorem settled_task {other : Nat} {next : Task} (settled : Settled key value young s)
    (tasks : ∀ q, t.tasks q = if q = other then next else s.tasks q)
    (clock : t.clock = s.clock) (row : t.rows key = s.rows key)
    (cached : ∀ expires found, t.cache key = some (expires, found) → found = value ∨ expires ≤ s.clock)
    (fetched : ∀ now found, next = .fetched key now found → found = value)
    (returned : ∀ found, young other → next = .returned key found → found = value)
    (free : ∀ found, next ≠ .writing key found ∧ next ≠ .committed key found) :
    Settled key value young t where
  row := row.trans settled.row
  cached := by
    rw [clock]
    exact cached
  fetched := by
    intro q now found here
    rw [tasks q] at here
    rw [clock]
    split at here
    · exact .inl (fetched now found here)
    · exact settled.fetched q now found here
  alone := by
    rintro q ⟨found, writes⟩
    rw [tasks q] at writes
    split at writes
    · cases writes with
      | inl writing => exact (free found).1 writing
      | inr committed => exact (free found).2 committed
    · exact settled.alone q ⟨found, writes⟩
  youngFetched := by
    intro q now found isYoung here
    rw [tasks q] at here
    split at here
    · exact fetched now found here
    · exact settled.youngFetched q now found isYoung here
  youngReturned := by
    intro q found isYoung here
    rw [tasks q] at here
    split at here
    · rename_i same
      exact returned found (same ▸ isYoung) here
    · exact settled.youngReturned q found isYoung here

/-- What has expired stays expired. -/
theorem settled_later {now : Nat} (settled : Settled key value young s) (later : s.clock ≤ now) :
    Settled key value young { s with clock := now } where
  row := settled.row
  cached := fun expires found here => (settled.cached expires found here).imp_right later.trans'
  fetched := fun q read found here => (settled.fetched q read found here).imp_right later.trans'
  alone := settled.alone
  youngFetched := settled.youngFetched
  youngReturned := settled.youngReturned

theorem settled_store {other now : Nat} {otherKey : String} {found : Json} (settled : Settled key value young s)
    (fetched : s.tasks other = .fetched otherKey now found) :
    Settled key value young (s.store other otherKey now found) := by
  refine settled_task settled (store_tasks s now) rfl rfl ?_ (by simp) ?_ (by simp)
  · intro expires cachedValue here
    rw [store_cache] at here
    split at here
    · rename_i same
      subst same
      cases here
      exact settled.fetched other now found fetched
    · exact settled.cached expires cachedValue here
  · intro value' isYoung same
    cases same
    exact settled.youngFetched other now found isYoung fetched

theorem settled_keeps {a : Action} (settled : Settled key value young s) (internal : Internal a)
    (noWrite : NoWrite key a) (moves : Moves s a t) : Settled key value young t := by
  cases moves with
  | tick later => exact settled_later settled later
  | hit idle found valid =>
      refine settled_task settled (setTask_tasks s _ _) rfl rfl settled.cached (by simp) ?_ (by simp)
      intro other _ same
      cases same
      exact (settled.cached _ _ found).resolve_right (by omega)
  | miss idle =>
      exact settled_task settled (setTask_tasks s _ _) rfl rfl settled.cached (by simp) (by simp) (by simp)
  | read missed =>
      refine settled_task settled (setTask_tasks s _ _) rfl rfl settled.cached ?_ (by simp) (by simp)
      intro now found same
      cases same
      simp [settled.row]
  | fail => exact internal.elim
  | store fetched => exact settled_store settled fetched
  | start idle =>
      refine settled_task settled (setTask_tasks s _ _) rfl rfl settled.cached (by simp) (by simp) ?_
      intro found
      constructor
      · intro same
        cases same
        exact noWrite rfl
      · simp
  | @commit other otherKey otherValue writing =>
      have otherRow : otherKey ≠ key := by
        rintro rfl
        exact settled.alone other ⟨otherValue, .inl writing⟩
      exact settled_task settled (commit_tasks s) rfl (by simp [Ne.symm otherRow]) settled.cached (by simp)
        (by simp) (by simp [otherRow])
  | invalidate committed =>
      refine settled_task settled (invalidate_tasks s) rfl rfl ?_ (by simp) (by simp) (by simp)
      intro expires found here
      rw [invalidate_cache] at here
      split at here
      · exact absurd here (by simp)
      · exact settled.cached expires found here
  | writeRow => exact internal.elim
  | deleteRow => exact internal.elim

theorem visible_of_noStaleReader (commits : Commits start s task key value)
    (fresh : NoStaleReader s key value) : Visible (s.invalidate task key value) key value := by
  obtain ⟨row, alone⟩ := commits_row commits
  have settled : Settled key value (fun q => (s.invalidate task key value).tasks q = .idle)
      (s.invalidate task key value) := by
    refine ⟨row, by simp, ?_, ?_, ?_, ?_⟩
    · intro q now found here
      rw [invalidate_tasks] at here
      split at here
      · cases here
      · exact fresh q now found here
    · rintro q ⟨found, writes⟩
      simp only [invalidate_tasks] at writes
      split at writes
      · simp at writes
      · rename_i other
        exact alone q other ⟨found, writes⟩
    · intro q now found idle here
      rw [idle] at here
      cases here
    · intro q found idle here
      rw [idle] at here
      cases here
  intro after t q found allowed reached idle here
  have always : Throughout State.step (fun _ => True) (s.invalidate task key value) after :=
    fun _ _ _ _ _ => trivial
  have final := runs_invariant settled
    (fun _ _ _ settled _ allowed enabled => settled_keeps settled allowed.1 allowed.2 (step_moves enabled))
    always allowed reached
  have same := final.youngReturned q found idle here
  refine ⟨same, ?_⟩
  rintro - rfl
  rw [same]
  rfl

/-- Only finitely many tasks have started. -/
theorem exists_idle (started : Started start) {actions : List Action}
    (reached : runs State.step start actions = some s) : ∃ bound, ∀ task ≥ bound, s.tasks task = .idle := by
  refine runs_invariant (J := fun u => ∃ bound, ∀ task ≥ bound, u.tasks task = .idle)
    (P := fun _ => True) (Q := fun _ => True) ⟨0, fun task _ => started.idle task⟩ ?_
    (fun _ _ _ _ _ => trivial) (fun _ _ => trivial) reached
  intro u a v bounded _ _ enabled
  obtain ⟨bound, idle⟩ := bounded
  have beyond : ∀ {other : Nat} {next : Task},
      (∀ q, v.tasks q = if q = other then next else u.tasks q) →
        ∃ bound, ∀ task ≥ bound, v.tasks task = .idle := by
    intro other next tasks
    refine ⟨max bound (other + 1), fun q large => ?_⟩
    rw [tasks, if_neg (by omega)]
    exact idle q (by omega)
  cases step_moves enabled with
  | tick => exact ⟨bound, idle⟩
  | hit => exact beyond (setTask_tasks u _ _)
  | miss => exact beyond (setTask_tasks u _ _)
  | read => exact beyond (setTask_tasks u _ _)
  | fail => exact beyond (setTask_tasks u _ _)
  | store => exact beyond (store_tasks u _)
  | start => exact beyond (setTask_tasks u _ _)
  | commit => exact beyond (commit_tasks u)
  | invalidate => exact beyond (invalidate_tasks u)
  | writeRow => exact ⟨bound, idle⟩
  | deleteRow => exact ⟨bound, idle⟩

/-- The stale reader stores what it holds and the next call finds it. -/
theorem noStaleReader_of_visible (commits : Commits start s task key value)
    (visible : Visible (s.invalidate task key value) key value) : NoStaleReader s key value := by
  intro reader now found fetched
  by_cases expired : now + ttl ≤ s.clock
  · exact .inr expired
  · have valid : s.clock < now + ttl := by omega
    obtain ⟨before, during, s₀, began, ran, -, -⟩ := commits.run
    obtain ⟨bound, idle⟩ := exists_idle commits.started (runs_trans began ran)
    have atReader : reader ≠ task := by
      rintro rfl
      rw [commits.atEnd] at fetched
      cases fetched
    have idleCall : s.tasks (max bound (max (reader + 1) (task + 1))) = .idle := idle _ (le_max_left _ _)
    generalize call : max bound (max (reader + 1) (task + 1)) = later at idleCall
    have laterReader : later ≠ reader := by omega
    have laterTask : later ≠ task := by omega
    have storeStep : (s.invalidate task key value).step (.getStore reader) =
        some ((s.invalidate task key value).store reader key now found) := by
      simp [State.step, atReader, fetched]
    have getStep : ((s.invalidate task key value).store reader key now found).step
        (.getStart later key .null) =
          some (((s.invalidate task key value).store reader key now found).setTask later
            (.returned key found)) := by
      have entry : ((s.invalidate task key value).store reader key now found).hit key = some found := by
        have clock : ((s.invalidate task key value).store reader key now found).clock = s.clock := rfl
        simp [State.hit, clock, valid]
      simp [State.step, laterReader, laterTask, idleCall, State.lookup, entry]
    have seen := visible [.getStore reader, .getStart later key .null] _ later found ?_
      (runs_trans (runs_one storeStep) (runs_one getStep)) (by simp [laterTask, idleCall]) (by simp)
    · exact .inl seen.1
    · intro a member
      rcases List.mem_cons.mp member with rfl | member
      · exact ⟨trivial, trivial⟩
      · rw [List.mem_singleton.mp member]
        exact ⟨trivial, trivial⟩

theorem visible_iff {s' : State} (commits : Commits start s task key value)
    (invalidated : s.step (.setInvalidate task) = some s') :
    Visible s' key value ↔ NoStaleReader s key value := by
  simp only [State.step, commits.atEnd, Option.some.injEq] at invalidated
  subst invalidated
  exact ⟨noStaleReader_of_visible commits, visible_of_noStaleReader commits⟩

/-- The table says that `auto_mode` is `shadow`. -/
def shadowed : State where
  clock := 0
  rows := fun key => if key = autoModeKey then some (.str "shadow") else none
  cache := fun _ => none
  tasks := fun _ => .idle

/-- Task 1 has read the table. -/
def reading : State :=
  (shadowed.setTask 1 (.missed autoModeKey 0 (.str "shadow"))).setTask 1
    (.fetched autoModeKey 0 (.str "shadow"))

/-- Task 0 has committed `off`. -/
def switchedOff (s : State) : State :=
  (s.setTask 0 (.writing autoModeKey (.str "off"))).commit 0 autoModeKey (.str "off")

theorem switchedOff_commits {before : List Action} {s : State}
    (reached : runs State.step shadowed before = some s) (idle : ∀ task ≠ 1, s.tasks task = .idle)
    (reader : ∀ key, ¬ s.Writes 1 key) :
    Commits shadowed (switchedOff s) 0 autoModeKey (.str "off") := by
  have still : ∀ other ≠ 0, s.tasks other = .idle ∨ other = 1 := by
    intro other _
    by_cases same : other = 1
    · exact .inr same
    · exact .inl (idle other same)
  have alone : ∀ {u : State}, (∀ other ≠ 0, u.tasks other = s.tasks other) →
      ∀ other ≠ 0, ¬ u.Writes other autoModeKey := by
    intro u same other away writes
    simp only [State.Writes, same other away] at writes
    cases still other away with
    | inl here => simp [here] at writes
    | inr here => exact reader autoModeKey (here ▸ writes)
  refine ⟨⟨fun _ => rfl, fun _ => rfl⟩, ⟨before, [.setCommit 0], s, reached, ?_, ?_, ?_⟩, by simp [switchedOff]⟩
  · simp [runs, State.step, idle, switchedOff]
  · refine throughout_cons (alone fun _ _ => rfl) (by simp [State.step, idle]; rfl)
      (throughout_cons (alone ?_) (by simp [State.step]; rfl) (throughout_nil (alone ?_)))
    · intro other away
      simp [away]
    · intro other away
      simp [away]
  · intro a member
    rw [List.mem_singleton.mp member]
    trivial

/-- Without a reader in flight the switch works at once. -/
theorem visible_iff_switch :
    Visible ((switchedOff shadowed).invalidate 0 autoModeKey (.str "off")) autoModeKey (.str "off") ↔
      NoStaleReader (switchedOff shadowed) autoModeKey (.str "off") :=
  visible_iff (@switchedOff_commits [] _ rfl (fun _ _ => rfl) (by simp [State.Writes, shadowed])) rfl

/-- A reader that stores after the invalidation keeps the old mode in the cache. -/
theorem stale_reader_hides_switch :
    ¬ ∀ (start s s' : State) (task : Nat) (key : String) (value : Json), Commits start s task key value →
      s.step (.setInvalidate task) = some s' → Visible s' key value := by
  intro always
  have commits : Commits shadowed (switchedOff reading) 0 autoModeKey (.str "off") :=
    @switchedOff_commits [.getStart 1 autoModeKey .null, .getRead 1] _ rfl
      (by intro task away; simp [reading, away, shadowed])
      (by simp [State.Writes, reading])
  have visible := always _ _ _ _ _ _ commits rfl
  have seen := visible [.getStore 1, .getStart 2 autoModeKey .null] _ 2 (.str "shadow") ?_ rfl rfl rfl
  · simp at seen
  · intro a member
    rcases List.mem_cons.mp member with rfl | member
    · exact ⟨trivial, trivial⟩
    · rw [List.mem_singleton.mp member]
      exact ⟨trivial, trivial⟩

end Nipoto.Settings
