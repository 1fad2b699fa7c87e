import Nipoto.Db.Visible

/-! # How old a setting may be

Whatever a call returns was in the table at most the cache's lifetime before the
call started, unless its own read failed. A cache entry expires one lifetime after
the start of the call that stored it, and that call read the table later.
-/

namespace Nipoto.Settings

open Transitions

/-- The built-in default of `auto_mode`. -/
def shadowMode : Json := .str "shadow"

/-- What a read of `auto_mode` finds in the table. -/
def State.modeRow (s : State) : Json := (s.rows autoModeKey).getD shadowMode

/-- The table had the value at some instant of the run from `start`, not earlier than `since`. -/
def Held (start : State) (past : List Action) (since : Nat) (value : Json) : Prop :=
  ∃ early late u, past = early ++ late ∧ runs State.step start early = some u ∧ since ≤ u.clock ∧
    value = u.modeRow

variable {start s t : State} {past : List Action} {a : Action} {since : Nat} {value : Json}

theorem Held.later (held : Held start past since value) (more : List Action) :
    Held start (past ++ more) since value := by
  obtain ⟨early, late, u, split, reached, recent, same⟩ := held
  exact ⟨early, late ++ more, u, by rw [split, List.append_assoc], reached, recent, same⟩

theorem Held.earlier (held : Held start past since value) {since' : Nat} (before : since' ≤ since) :
    Held start past since' value := by
  obtain ⟨early, late, u, split, reached, recent, same⟩ := held
  exact ⟨early, late, u, split, reached, before.trans recent, same⟩

theorem held_now (reached : runs State.step start past = some s) (recent : since ≤ s.clock) :
    Held start past since s.modeRow := ⟨past, [], s, (List.append_nil past).symm, reached, recent, rfl⟩

/-- Where every value comes from that is cached or about to be. -/
structure Fresh (start : State) (past : List Action) (s : State) : Prop where
  reached : runs State.step start past = some s
  cached : ∀ expires value, s.cache autoModeKey = some (expires, value) →
    ∃ since, expires ≤ since + ttl ∧ Held start past since value
  missed : ∀ task now fallback, s.tasks task = .missed autoModeKey now fallback →
    now ≤ s.clock ∧ fallback = shadowMode
  fetched : ∀ task now value, s.tasks task = .fetched autoModeKey now value → Held start past now value

theorem fresh_started (started : Started start) : Fresh start [] start where
  reached := rfl
  cached := by simp [started.cold]
  missed := by simp [started.idle]
  fetched := by simp [started.idle]

/-- What an action leaves in the cache is what was there or what a call has fetched, and
    it moves one task at most. -/
theorem Fresh.move (fresh : Fresh start past s) (enabled : s.step a = some t) (clock : s.clock ≤ t.clock)
    (cached : ∀ expires value, t.cache autoModeKey = some (expires, value) →
      s.cache autoModeKey = some (expires, value) ∨
        ∃ task now, s.tasks task = .fetched autoModeKey now value ∧ expires = now + ttl)
    {task : Nat} {next : Task} (tasks : ∀ other, t.tasks other = if other = task then next else s.tasks other)
    (missed : ∀ now fallback, next = .missed autoModeKey now fallback → now ≤ t.clock ∧ fallback = shadowMode)
    (fetched : ∀ now value, next = .fetched autoModeKey now value → Held start past now value) :
    Fresh start (past ++ [a]) t where
  reached := runs_trans fresh.reached (runs_one enabled)
  cached := by
    intro expires value entry
    cases cached expires value entry with
    | inl old =>
        obtain ⟨since, bound, held⟩ := fresh.cached expires value old
        exact ⟨since, bound, held.later [a]⟩
    | inr stored =>
        obtain ⟨other, now, holds, rfl⟩ := stored
        exact ⟨now, le_rfl, (fresh.fetched other now value holds).later [a]⟩
  missed := by
    intro other now fallback here
    rw [tasks] at here
    split at here
    · exact missed now fallback here
    · obtain ⟨before, same⟩ := fresh.missed other now fallback here
      exact ⟨before.trans clock, same⟩
  fetched := by
    intro other now value here
    rw [tasks] at here
    split at here
    · exact (fetched now value here).later [a]
    · exact (fresh.fetched other now value here).later [a]

/-- An action of no task. -/
theorem Fresh.outside (fresh : Fresh start past s) (enabled : s.step a = some t) (clock : s.clock ≤ t.clock)
    (cache : t.cache = s.cache) (tasks : t.tasks = s.tasks) : Fresh start (past ++ [a]) t := by
  -- as if task 0 moved to where it is
  have moved : ∀ other, t.tasks other = if other = 0 then s.tasks 0 else s.tasks other := by
    intro other
    rw [tasks]
    split
    · rename_i same
      rw [same]
    · rfl
  refine fresh.move enabled clock ?_ moved ?_ (fresh.fetched 0)
  · intro expires value entry
    exact .inl (cache ▸ entry)
  · intro now fallback here
    obtain ⟨before, same⟩ := fresh.missed 0 now fallback here
    exact ⟨before.trans clock, same⟩

theorem defaults_mode (default : Json) : (defaults autoModeKey).getD default = shadowMode := by
  simp [defaults, shadowMode]

theorem fresh_step (fresh : Fresh start past s) (enabled : s.step a = some t) :
    Fresh start (past ++ [a]) t := by
  cases step_moves enabled with
  | tick later => exact fresh.outside enabled later rfl rfl
  | writeRow => exact fresh.outside enabled le_rfl rfl rfl
  | deleteRow => exact fresh.outside enabled le_rfl rfl rfl
  | hit => exact fresh.move enabled le_rfl (fun _ _ => .inl) (setTask_tasks s _ _) (by simp) (by simp)
  | @miss task key default =>
      refine fresh.move enabled le_rfl (fun _ _ => .inl) (setTask_tasks s _ _) ?_ (by simp)
      intro now fallback same
      obtain ⟨rfl, rfl, rfl⟩ := Task.missed.inj same
      exact ⟨le_rfl, defaults_mode default⟩
  | @read task key now fallback missed =>
      refine fresh.move enabled le_rfl (fun _ _ => .inl) (setTask_tasks s _ _) (by simp) ?_
      intro now' value same
      obtain ⟨rfl, rfl, rfl⟩ := Task.fetched.inj same
      obtain ⟨before, rfl⟩ := fresh.missed task now fallback missed
      exact held_now fresh.reached before
  | fail => exact fresh.move enabled le_rfl (fun _ _ => .inl) (setTask_tasks s _ _) (by simp) (by simp)
  | @store task key now value fetched =>
      refine fresh.move enabled le_rfl ?_ (store_tasks s now) (by simp) (by simp)
      intro expires found entry
      rw [store_cache] at entry
      split at entry
      · rename_i same
        subst same
        obtain ⟨rfl, rfl⟩ := Prod.mk.inj (Option.some.inj entry)
        exact .inr ⟨task, now, fetched, rfl⟩
      · exact .inl entry
  | start => exact fresh.move enabled le_rfl (fun _ _ => .inl) (setTask_tasks s _ _) (by simp) (by simp)
  | commit => exact fresh.move enabled le_rfl (fun _ _ => .inl) (commit_tasks s) (by simp) (by simp)
  | invalidate =>
      refine fresh.move enabled le_rfl ?_ (invalidate_tasks s) (by simp) (by simp)
      intro expires found entry
      rw [invalidate_cache] at entry
      split at entry
      · exact absurd entry (by simp)
      · exact .inl entry

/-- Where a `get` of `auto_mode` stands that started at `began`; `during` is what has
    happened since. -/
inductive Getting (start : State) (past during : List Action) (began task : Nat) (s : State) : Prop
  | missed (here : s.tasks task = .missed autoModeKey began shadowMode)
  | fetched {found : Json} (here : s.tasks task = .fetched autoModeKey began found)
      (held : Held start past began found)
  | returned {found : Json} (here : s.tasks task = .returned autoModeKey found)
      (held : Held start past (began - ttl) found)
  | failed (here : s.tasks task = .returned autoModeKey shadowMode) (read : .getFail task ∈ during)

variable {during : List Action} {began task : Nat}

theorem Getting.elsewhere (getting : Getting start past during began task s) (a : Action)
    (same : t.tasks task = s.tasks task) : Getting start (past ++ [a]) (during ++ [a]) began task t := by
  cases getting with
  | missed here => exact .missed (same.trans here)
  | fetched here held => exact .fetched (same.trans here) (held.later [a])
  | returned here held => exact .returned (same.trans here) (held.later [a])
  | failed here read => exact .failed (same.trans here) (List.mem_append_left [a] read)

theorem setTask_here (s : State) (task : Nat) (next : Task) : (s.setTask task next).tasks task = next := by simp

theorem getting_start (fresh : Fresh start past s) {default : Json}
    (enabled : s.step (.getStart task autoModeKey default) = some t) :
    Getting start (past ++ [.getStart task autoModeKey default]) [] s.clock task t := by
  cases step_moves enabled with
  | hit idle found valid =>
      obtain ⟨since, bound, held⟩ := fresh.cached _ _ found
      exact .returned (by simp) ((held.earlier (by omega)).later _)
  | miss idle => exact .missed (by simp [defaults_mode])

/-- The call neither waits to start nor writes. -/
theorem Getting.reads (getting : Getting start past during began task s) :
    s.tasks task ≠ .idle ∧ (s.tasks task).isSet = false := by
  cases getting with
  | missed here => rw [here]; exact ⟨by simp, rfl⟩
  | fetched here => rw [here]; exact ⟨by simp, rfl⟩
  | returned here => rw [here]; exact ⟨by simp, rfl⟩
  | failed here => rw [here]; exact ⟨by simp, rfl⟩

theorem Getting.of_missed (getting : Getting start past during began task s) {key : String} {now : Nat}
    {fallback : Json} (missed : s.tasks task = .missed key now fallback) :
    key = autoModeKey ∧ now = began ∧ fallback = shadowMode := by
  cases getting with
  | missed here => exact Task.missed.inj (missed.symm.trans here)
  | fetched here => exact Task.noConfusion (missed.symm.trans here)
  | returned here => exact Task.noConfusion (missed.symm.trans here)
  | failed here => exact Task.noConfusion (missed.symm.trans here)

theorem Getting.of_fetched (getting : Getting start past during began task s) {key : String} {now : Nat}
    {found : Json} (fetched : s.tasks task = .fetched key now found) :
    key = autoModeKey ∧ Held start past began found := by
  cases getting with
  | missed here => exact Task.noConfusion (fetched.symm.trans here)
  | fetched here held =>
      obtain ⟨rfl, -, rfl⟩ := Task.fetched.inj (fetched.symm.trans here)
      exact ⟨rfl, held⟩
  | returned here => exact Task.noConfusion (fetched.symm.trans here)
  | failed here => exact Task.noConfusion (fetched.symm.trans here)

theorem getting_step (fresh : Fresh start past s) (getting : Getting start past during began task s)
    (enabled : s.step a = some t) : Getting start (past ++ [a]) (during ++ [a]) began task t := by
  have away : ∀ {other : Nat} {next : Task}, (∀ q, t.tasks q = if q = other then next else s.tasks q) →
      task ≠ other → Getting start (past ++ [a]) (during ++ [a]) began task t := by
    intro other next tasks apart
    exact getting.elsewhere a (by rw [tasks, if_neg apart])
  have notIdle : ∀ {other : Nat}, s.tasks other = .idle → task ≠ other := by
    rintro other idle rfl
    exact getting.reads.1 idle
  have notSet : ∀ {other : Nat}, (s.tasks other).isSet = true → task ≠ other := by
    rintro other isSet rfl
    rw [getting.reads.2] at isSet
    exact absurd isSet (by simp)
  cases step_moves enabled with
  | tick => exact getting.elsewhere _ rfl
  | writeRow => exact getting.elsewhere _ rfl
  | deleteRow => exact getting.elsewhere _ rfl
  | hit idle => exact away (setTask_tasks s _ _) (notIdle idle)
  | miss idle => exact away (setTask_tasks s _ _) (notIdle idle)
  | start idle => exact away (setTask_tasks s _ _) (notIdle idle)
  | commit writing => exact away (commit_tasks s) (notSet (by rw [writing]; rfl))
  | invalidate committed => exact away (invalidate_tasks s) (notSet (by rw [committed]; rfl))
  | @read other key now fallback missed =>
      by_cases mine : task = other
      · subst mine
        obtain ⟨rfl, rfl, rfl⟩ := getting.of_missed missed
        have read := held_now fresh.reached (fresh.missed task now _ missed).1
        exact .fetched (setTask_here s task _) (read.later _)
      · exact away (setTask_tasks s _ _) mine
  | @fail other key now fallback missed =>
      by_cases mine : task = other
      · subst mine
        obtain ⟨rfl, rfl, rfl⟩ := getting.of_missed missed
        exact .failed (setTask_here s task _) (by simp)
      · exact away (setTask_tasks s _ _) mine
  | @store other key now found fetched =>
      by_cases mine : task = other
      · subst mine
        obtain ⟨rfl, held⟩ := getting.of_fetched fetched
        exact .returned (setTask_here s task _) ((held.earlier (Nat.sub_le began ttl)).later _)
      · exact away (store_tasks s now) mine

theorem fresh_run (started : Started start) (reached : runs State.step start past = some s) : Fresh start past s :=
  runs_history (fresh_started started) (fun _ _ _ _ => fresh_step) reached

theorem getting_run (fresh : Fresh start past s) (getting : Getting start past [] began task s)
    (ran : runs State.step s during = some t) : Getting start (past ++ during) during began task t := by
  have start' : Fresh start (past ++ []) s ∧ Getting start (past ++ []) [] began task s := by
    rw [List.append_nil]
    exact ⟨fresh, getting⟩
  have grown := runs_history
    (J := fun during u => Fresh start (past ++ during) u ∧ Getting start (past ++ during) during began task u)
    start' ?_ ran
  · exact grown.2
  · intro during u a v here enabled
    rw [← List.append_assoc]
    exact ⟨fresh_step here.1 enabled, getting_step here.1 here.2 enabled⟩

/-- A `get` of `auto_mode` that starts at `s` returns the default after its own read
    failed, or what the table had at most the cache's lifetime before. -/
theorem returned_within_lifetime {before after : List Action} {default : Json} (started : Started start)
    (reached : runs State.step start before = some s)
    (ran : runs State.step s (.getStart task autoModeKey default :: after) = some t)
    (returned : t.tasks task = .returned autoModeKey value) :
    (value = shadowMode ∧ .getFail task ∈ after) ∨
      ∃ early late u, before ++ .getStart task autoModeKey default :: after = early ++ late ∧
        runs State.step start early = some u ∧ s.clock ≤ u.clock + ttl ∧ value = u.modeRow := by
  have fresh := fresh_run started reached
  obtain ⟨u, enabled, rest⟩ := runs_cons ran
  have getting := getting_run (fresh_step fresh enabled) (getting_start fresh enabled) rest
  cases getting with
  | missed here => exact Task.noConfusion (returned.symm.trans here)
  | fetched here => exact Task.noConfusion (returned.symm.trans here)
  | failed here read =>
      obtain ⟨-, rfl⟩ := Task.returned.inj (returned.symm.trans here)
      exact .inl ⟨rfl, read⟩
  | returned here held =>
      obtain ⟨-, rfl⟩ := Task.returned.inj (returned.symm.trans here)
      obtain ⟨early, late, v, split, atInstant, recent, same⟩ := held
      refine .inr ⟨early, late, v, ?_, atInstant, by omega, same⟩
      rw [← split, List.append_assoc]
      rfl

/-- A call is answered from the cache after the row was changed. -/
theorem returned_within_lifetime_cached :
    (Json.str "shadow" = shadowMode ∧ Action.getFail 1 ∈ []) ∨
      ∃ early late u, [Action.getStart 0 autoModeKey .null, .getRead 0, .getStore 0,
          .writeRow autoModeKey (.str "off"), .tick 5000000, .getStart 1 autoModeKey .null] = early ++ late ∧
        runs State.step shadowed early = some u ∧ 5000000 ≤ u.clock + ttl ∧ Json.str "shadow" = u.modeRow :=
  @returned_within_lifetime shadowed _ _ (.str "shadow") 1
    [.getStart 0 autoModeKey .null, .getRead 0, .getStore 0, .writeRow autoModeKey (.str "off"), .tick 5000000] []
    .null ⟨fun _ => rfl, fun _ => rfl⟩ rfl rfl rfl

end Nipoto.Settings
