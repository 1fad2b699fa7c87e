import Nipoto.Db.Settings

/-! # Reading through the cache

Calls of `get` one after the other, with a table that nobody changes and that can
always be read. A read through the cache is compared with a read without it.
-/

namespace Nipoto.Settings

open Transitions

/-- A call of `get` and the reading of the clock when it starts. -/
structure Call where
  now : Nat
  key : String
  default : Json

abbrev Cache := String → Option (Nat × Json)

variable (rows : String → Option Json)

/-- What a read without the cache returns. -/
def uncached (call : Call) : Json := (rows call.key).getD ((defaults call.key).getD call.default)

/-- The read and the store after a cache miss. -/
def refill (cache : Cache) (call : Call) : Cache × Json :=
  (Function.update cache call.key (some (call.now + ttl, uncached rows call)), uncached rows call)

/-- `get`: the cache afterwards and the value returned. -/
def get (cache : Cache) (call : Call) : Cache × Json :=
  match cache call.key with
  | some (expires, value) => if call.now < expires then (cache, value) else refill rows cache call
  | none => refill rows cache call

/-- What the calls of a sequence return. -/
def serve (cache : Cache) : List Call → List Json
  | [] => []
  | call :: rest => (get rows cache call).2 :: serve (get rows cache call).1 rest

/-- The cache cannot be seen. -/
def Transparent (calls : List Call) : Prop := serve rows (fun _ => none) calls = calls.map (uncached rows)

/-- The call so far that has filled the entry of a key: a call fills it unless another one
    has within the last ten seconds. -/
def filler (key : String) (calls : List Call) : Option Call :=
  calls.foldl (fun last call => if call.key = key ∧ ∀ h ∈ last, h.now + ttl ≤ call.now then some call else last) none

/-- A call finds an entry that a call with another default has filled, for a key with neither
    a row nor a built-in default. -/
structure Spoiled (call filled : Call) : Prop where
  row : rows call.key = none
  builtin : defaults call.key = none
  valid : call.now < filled.now + ttl
  other : filled.default ≠ call.default

theorem get_hit {s : State} {key : String} {value : Json} (hit : s.hit key = some value) (default : Json) :
    get s.rows s.cache ⟨s.clock, key, default⟩ = (s.cache, value) := by
  unfold State.hit at hit
  unfold get
  cases found : s.cache key with
  | none => simp [found] at hit
  | some entry =>
      obtain ⟨expires, old⟩ := entry
      simp only [found, Option.ite_none_right_eq_some, Option.some.injEq] at hit
      simp [hit]

theorem get_miss {s : State} {key : String} (missed : s.hit key = none) (default : Json) :
    get s.rows s.cache ⟨s.clock, key, default⟩ = refill s.rows s.cache ⟨s.clock, key, default⟩ := by
  unfold State.hit at missed
  unfold get
  cases found : s.cache key with
  | none => rfl
  | some entry =>
      obtain ⟨expires, old⟩ := entry
      simp only [found, ite_eq_right_iff, reduceCtorEq, imp_false] at missed
      simp [missed]

/-- A call on its own takes one or three steps of the settings machine. -/
theorem get_runs (s : State) {task : Nat} (idle : s.tasks task = .idle) (key : String) (default : Json) :
    ∃ actions t, runs State.step s (.getStart task key default :: actions) = some t ∧
      t.cache = (get s.rows s.cache ⟨s.clock, key, default⟩).1 ∧
      t.tasks = Function.update s.tasks task (.returned key (get s.rows s.cache ⟨s.clock, key, default⟩).2) ∧
      t.rows = s.rows ∧ t.clock = s.clock := by
  have start : s.step (.getStart task key default) = some (s.lookup task key default) := by simp [State.step, idle]
  cases hit : s.hit key with
  | some value =>
      refine ⟨[], s.setTask task (.returned key value), ?_, by rw [get_hit hit]; rfl, by rw [get_hit hit]; rfl, rfl, rfl⟩
      rw [runs, start, Option.bind_some, runs, State.lookup, hit]
  | none =>
      let value := uncached s.rows ⟨s.clock, key, default⟩
      refine ⟨[.getRead task, .getStore task],
        ((s.setTask task (.missed key s.clock ((defaults key).getD default))).setTask task
          (.fetched key s.clock value)).store task key s.clock value, ?_, ?_⟩
      · rw [runs, start, Option.bind_some, State.lookup, hit]
        simp [runs, State.step, State.setTask, value, uncached]
      · rw [get_miss hit]
        simp [State.store, State.setTask, refill, value]

/-- Calls one after the other are a run of the settings machine, each in a task of its own. -/
theorem serve_runs {calls : List Call} {s : State} (later : List.IsChain (· ≤ ·) (s.clock :: calls.map Call.now)) {n : Nat}
    (idle : ∀ j, n ≤ j → s.tasks j = .idle) :
    ∃ actions t, runs State.step s actions = some t ∧ (∀ j, j < n → t.tasks j = s.tasks j) ∧
      ∀ i call value, calls[i]? = some call → (serve s.rows s.cache calls)[i]? = some value →
        t.tasks (n + i) = .returned call.key value := by
  induction calls generalizing s n with
  | nil => exact ⟨[], s, rfl, fun _ _ => rfl, by simp⟩
  | cons call rest ih =>
      rw [List.map_cons, List.isChain_cons_cons] at later
      let ticked : State := { s with clock := call.now }
      have tick : s.step (.tick call.now) = some ticked := if_pos later.1
      obtain ⟨actions, t, reached, cache, tasks, rows, clock⟩ := get_runs ticked (idle n le_rfl) call.key call.default
      have idleNext : ∀ j, n + 1 ≤ j → t.tasks j = .idle := by
        intro j beyond
        rw [tasks, Function.update_of_ne (by omega)]
        exact idle j (by omega)
      obtain ⟨more, u, after, kept, served⟩ := ih (by rw [clock]; exact later.2) idleNext
      refine ⟨[.tick call.now] ++ (.getStart n call.key call.default :: actions) ++ more, u,
        runs_trans (runs_trans (runs_one tick) reached) after, fun j before => ?_, ?_⟩
      · rw [kept j (by omega), tasks, Function.update_of_ne (by omega)]
      · intro i other value found answer
        cases i with
        | zero =>
            obtain rfl := Option.some.inj found
            obtain rfl := Option.some.inj answer
            rw [Nat.add_zero, kept n (by omega), tasks, Function.update_self]
        | succ i =>
            rw [Nat.add_succ, ← Nat.succ_add]
            refine served i other value found ?_
            rw [rows, cache]
            exact answer

/-- The call whose read a call returns. -/
def servedBy (past : List Call) (call : Call) : Call :=
  match filler call.key past with
  | some h => if call.now < h.now + ttl then h else call
  | none => call

/-- Every entry is what its filler has read. -/
def Filled (past : List Call) (cache : Cache) : Prop :=
  ∀ key, cache key = (filler key past).map fun h => (h.now + ttl, uncached rows h)

theorem filler_append (key : String) (past : List Call) (call : Call) :
    filler key (past ++ [call]) =
      if call.key = key ∧ ∀ h ∈ filler key past, h.now + ttl ≤ call.now then some call else filler key past := by
  rw [filler, List.foldl_append]
  rfl

theorem filler_key {key : String} {past : List Call} {h : Call} (filled : filler key past = some h) : h.key = key := by
  induction past using List.reverseRecOn with
  | nil => simp [filler] at filled
  | append_singleton past call ih =>
      rw [filler_append] at filled
      split at filled
      · rename_i here
        exact Option.some.inj filled ▸ here.1
      · exact ih filled

variable {rows}

theorem get_filled {past : List Call} {cache : Cache} (filled : Filled rows past cache) (call : Call) :
    Filled rows (past ++ [call]) (get rows cache call).1 ∧
      (get rows cache call).2 = uncached rows (servedBy past call) := by
  have entry := filled call.key
  by_cases valid : ∃ h ∈ filler call.key past, call.now < h.now + ttl
  · obtain ⟨h, found, early⟩ := valid
    have hit : get rows cache call = (cache, uncached rows h) := by
      rw [get, entry, found]
      simp [early]
    have served : servedBy past call = h := by
      rw [servedBy, found]
      simp [early]
    refine ⟨fun key => ?_, by rw [hit, served]⟩
    rw [hit, filler_append]
    split
    · rename_i fills
      rw [← fills.1, found] at fills
      exact absurd early (Nat.not_lt.mpr (fills.2 h rfl))
    · exact filled key
  · have late : ∀ h ∈ filler call.key past, h.now + ttl ≤ call.now := by
      intro h found
      by_contra early
      exact valid ⟨h, found, Nat.lt_of_not_le early⟩
    have miss : get rows cache call = refill rows cache call := by
      rw [get, entry]
      cases found : filler call.key past with
      | none => rfl
      | some h => simp [Nat.not_lt.mpr (late h found)]
    have served : servedBy past call = call := by
      rw [servedBy]
      cases found : filler call.key past with
      | none => rfl
      | some h => simp [Nat.not_lt.mpr (late h found)]
    refine ⟨fun key => ?_, by rw [miss, served]; rfl⟩
    rw [miss, filler_append]
    by_cases same : call.key = key
    · subst same
      rw [if_pos ⟨rfl, late⟩]
      simp [refill]
    · rw [if_neg fun fills => same fills.1, ← filled key]
      simp [refill, Ne.symm same]

/-- A run of calls, each served from what the earlier ones have left. -/
theorem serve_filled {past : List Call} {cache : Cache} (filled : Filled rows past cache) (calls : List Call) :
    serve rows cache calls = calls.map (uncached rows) ↔
      ∀ mid call later, calls = mid ++ call :: later →
        uncached rows (servedBy (past ++ mid) call) = uncached rows call := by
  induction calls generalizing past cache with
  | nil => simp [serve]
  | cons first rest ih =>
      obtain ⟨heldNext, value⟩ := get_filled filled first
      have later := ih heldNext
      rw [serve, List.map_cons, List.cons.injEq, value, later]
      constructor
      · rintro ⟨here, every⟩ mid call more split
        cases mid with
        | nil =>
            obtain ⟨rfl, -⟩ := List.cons.inj split
            rwa [List.append_nil]
        | cons c mid =>
            obtain ⟨rfl, rest⟩ := List.cons.inj split
            have there := every mid call more rest
            rwa [List.append_assoc] at there
      · intro every
        refine ⟨?_, fun mid call more split => ?_⟩
        · have here := every [] first rest rfl
          rwa [List.append_nil] at here
        · have there := every (first :: mid) call more (by rw [split]; rfl)
          rwa [List.append_assoc]

theorem uncached_servedBy (past : List Call) (call : Call) :
    uncached rows (servedBy past call) = uncached rows call ↔ ∀ h ∈ filler call.key past, ¬ Spoiled rows call h := by
  rw [servedBy]
  cases found : filler call.key past with
  | none => simp
  | some h =>
      have same := filler_key found
      simp only [Option.mem_some_iff, forall_eq']
      split
      · rename_i valid
        simp only [uncached, same]
        cases row : rows call.key with
        | some value => simpa using fun spoiled : Spoiled rows call h => by simpa [row] using spoiled.row
        | none =>
            cases builtin : defaults call.key with
            | some value => simpa using fun spoiled : Spoiled rows call h => by simpa [builtin] using spoiled.builtin
            | none =>
                simp only [Option.getD_none]
                constructor
                · exact fun equal spoiled => spoiled.other equal
                · intro unspoiled
                  by_contra other
                  exact unspoiled ⟨row, builtin, valid, other⟩
      · rename_i late
        exact iff_of_true rfl fun spoiled => late spoiled.valid

/-- The cache cannot be seen just if no call finds an entry that another default has spoiled. -/
theorem transparent_iff (rows : String → Option Json) (calls : List Call) : Transparent rows calls ↔
    ∀ past call later, calls = past ++ call :: later → ∀ h ∈ filler call.key past, ¬ Spoiled rows call h := by
  have cold : Filled rows [] fun _ => none := fun key => rfl
  have run := serve_filled cold calls
  simp only [List.nil_append, uncached_servedBy] at run
  exact run

/-- Two callers of one unknown key. -/
theorem second_default_ignored : ¬ ∀ (rows : String → Option Json) (calls : List Call), Transparent rows calls := by
  intro all
  have same := all (fun _ => none) [⟨0, "x", .int 1⟩, ⟨1, "x", .int 2⟩]
  simp [Transparent, serve, get, refill, uncached, defaults, autoModeKey, ttl] at same

end Nipoto.Settings
