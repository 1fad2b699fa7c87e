import Nipoto.Db.Session
import Nipoto.Db.Staleness

/-! # How old a setting may be, with real sessions

What the settings machine guarantees of a value's age carries over to the calls with
their sessions, since the table is seen alike in both.
-/

namespace Nipoto.Sessions

open Settings Transitions Simulation

variable {s s' u start : Service} {t v : State} {e : Event} {before after rest : List Event} {k : Nat}

def Service.seen (s : Service) : Nat × (String → Option Json) := (s.clock, s.rows)

def seenAbove (t : State) : Nat × (String → Option Json) := (t.clock, t.rows)

/-- Only the start of a read without an engine stands for two actions. -/
theorem means_short (s : Service) (e : Event) (rest : List Event) :
    (means s e rest).length ≤ 1 ∨ ∃ k key default, means s e rest = [.getStart k key default, .getFail k] := by
  cases e with
  | getStart k key default =>
      by_cases down : ((s.asSettings.hit key).isNone && !s.engine) = true
      · exact .inr ⟨k, key, default, by simp only [means, if_pos down]⟩
      · exact .inl (by simp only [means, if_neg down]; rfl)
  | _ =>
      apply Or.inl
      simp only [means]
      repeat' split
      all_goals simp

theorem getStart_seen {key : String} {default : Json} (enabled : t.step (.getStart k key default) = some v) :
    seenAbove v = seenAbove t := by
  cases step_moves enabled with
  | hit => rfl
  | miss => rfl

theorem table_observed : Observed Service.step State.step means Matches Service.seen seenAbove where
  same matched := Prod.ext matched.clock matched.rows
  within := by
    intro e rest s s' t v early late matched _ split more ran
    have before : seenAbove t = s.seen := Prod.ext matched.clock matched.rows
    cases early with
    | nil =>
        obtain rfl := Option.some.inj ran
        exact before
    | cons a early =>
        rcases means_short s e rest with short | ⟨k, key, default, two⟩
        · rw [split] at short
          have : late.length = 0 := by
            simp only [List.cons_append, List.length_cons, List.length_append] at short
            omega
          exact absurd (List.length_eq_zero_iff.mp this) more
        · rw [two] at split
          obtain ⟨rfl, tail⟩ := List.cons.inj split
          cases early with
          | nil =>
              obtain ⟨w, enabled, done⟩ := runs_cons ran
              obtain rfl := Option.some.inj done
              exact (getStart_seen enabled).trans before
          | cons b early =>
              obtain ⟨-, none⟩ := List.cons.inj tail
              exact absurd (List.append_eq_nil_iff.mp none.symm).2 more

theorem setPhase_busy (busy : s.phases k ≠ .idle) {j : Nat} {next : Phase} (other : next ≠ .idle) :
    (s.setPhase j next).phases k ≠ .idle := by
  unfold Service.setPhase
  by_cases same : k = j
  · simpa [same] using other
  · simpa [same] using busy

theorem failed_busy (stmt : Statement) : stmt.failed ≠ .idle := by
  cases stmt <;> exact Phase.noConfusion

/-- A call is made once. -/
theorem busy_step (busy : s.phases k ≠ .idle) (enabled : s.step e = some s') : s'.phases k ≠ .idle := by
  cases step_takes enabled with
  | tick | engine | writeRow | deleteRow => exact busy
  | hit | opens | down | executed | notExecuted | committed | refused | lost | rolledBack | cancelledCommit | cancelled =>
      exact setPhase_busy busy (by simp)
  | setStart idle begun => exact setPhase_busy busy (by rcases begun with rfl | rfl <;> simp)
  | @closed task stmt row => cases stmt <;> exact setPhase_busy busy (by simp)
  | notClosed | left => exact setPhase_busy busy (failed_busy _)

theorem busy_runs (busy : s.phases k ≠ .idle) {events : List Event} (reached : runs Service.step s events = some u) :
    u.phases k ≠ .idle :=
  @runs_history _ _ _ _ _ _ (fun _ s => s.phases k ≠ .idle) [] busy (fun _ _ _ _ => busy_step) reached

/-- What the failure of a read stands for. -/
theorem getFail_means (failed : .getFail k ∈ means s e rest) :
    (∃ key default, e = .getStart k key default) ∨ e = .close k false ∨ e = .leave k := by
  cases e with
  | getStart j key default =>
      simp only [means, List.mem_cons, reduceCtorEq, false_or] at failed
      split at failed
      · obtain rfl := Action.getFail.inj (List.mem_singleton.mp failed)
        exact .inl ⟨key, default, rfl⟩
      · cases failed
  | close j ok =>
      cases ok with
      | true =>
          simp only [means, if_true] at failed
          split at failed <;> simp at failed
      | false =>
          simp only [means, Bool.false_eq_true, if_false] at failed
          split at failed
          · obtain rfl := Action.getFail.inj (List.mem_singleton.mp failed)
            exact .inr (.inl rfl)
          · cases failed
  | leave j =>
      simp only [means] at failed
      split at failed
      · obtain rfl := Action.getFail.inj (List.mem_singleton.mp failed)
        exact .inr (.inr rfl)
      · cases failed
  | _ =>
      simp only [means] at failed
      repeat' split at failed
      all_goals simp at failed

theorem getStart_idle {key : String} {default : Json} (enabled : s.step (.getStart k key default) = some s') :
    s.phases k = .idle ∧ s'.phases k ≠ .idle := by
  cases step_takes enabled with
  | engine switch => rcases switch with same | same <;> cases same
  | hit idle => exact ⟨idle, by simp [Service.setPhase]⟩
  | opens idle => exact ⟨idle, by simp [Service.setPhase]⟩
  | down idle => exact ⟨idle, by simp [Service.setPhase]⟩

/-- After its start a read fails with its session only. -/
theorem getFail_after {events : List Event} (busy : s.phases k ≠ .idle) (reached : runs Service.step s events = some u)
    (failed : .getFail k ∈ translate Service.step means s events) : .close k false ∈ events ∨ .leave k ∈ events := by
  obtain ⟨before, e, after, w, parts, ran, can, found⟩ := mem_translate reached failed
  have member : e ∈ events := by
    rw [parts]
    exact List.mem_append_right before List.mem_cons_self
  rcases getFail_means found with ⟨key, default, rfl⟩ | rfl | rfl
  · obtain ⟨w', enabled⟩ := Option.isSome_iff_exists.mp can
    exact absurd (getStart_idle enabled).1 (busy_runs busy ran)
  · exact .inl member
  · exact .inr member

/-- A call of `get` for `auto_mode` returns the default after its own session has failed,
    or what the table had at most the cache's lifetime before the call started. -/
theorem session_within_lifetime {default value : Json} (begun : Begun start)
    (reached : runs Service.step start before = some s)
    (ran : runs Service.step s (.getStart k autoModeKey default :: after) = some u)
    (returned : u.phases k = .returned autoModeKey value) :
    (value = shadowMode ∧ (s.engine = false ∨ .close k false ∈ after ∨ .leave k ∈ after)) ∨
      ∃ early late w, before ++ .getStart k autoModeKey default :: after = early ++ late ∧
        runs Service.step start early = some w ∧ s.clock ≤ w.clock + ttl ∧
        value = (w.rows autoModeKey).getD shadowMode := by
  have matched := matches_begun begun (before ++ .getStart k autoModeKey default :: after)
  obtain ⟨part, t, split, above, middle⟩ := runs_simulated_to simulates matched reached ran
  obtain ⟨v, goesOn, last⟩ := runs_simulated simulates middle ran
  obtain ⟨s', enabled, later⟩ := runs_cons ran
  rw [translate_cons enabled, means, List.cons_append] at goesOn split
  obtain ⟨t', first, second⟩ := runs_cons goesOn
  have started : Started start.asSettings := ⟨fun _ => rfl, begun.cold⟩
  have fresh := fresh_run started above
  have getting := getting_run (fresh_step fresh first) (getting_start fresh first) second
  have known : v.tasks k = .returned autoModeKey value := last.task returned rfl
  cases getting with
  | missed here => exact absurd (known.symm.trans here) (by simp)
  | fetched here => exact absurd (known.symm.trans here) (by simp)
  | failed here read =>
      obtain ⟨-, rfl⟩ := Task.returned.inj (known.symm.trans here)
      refine .inl ⟨rfl, ?_⟩
      cases List.mem_append.mp read with
      | inl atOnce =>
          split at atOnce
          · rename_i down
            exact .inl (by simpa using (Bool.and_eq_true_iff.mp down).2)
          · cases atOnce
      | inr meanwhile => exact .inr (getFail_after (getStart_idle enabled).2 later meanwhile)
  | returned here held =>
      obtain ⟨-, rfl⟩ := Task.returned.inj (known.symm.trans here)
      obtain ⟨early, late, w, cut, atInstant, recent, same⟩ := held
      rw [List.append_assoc, List.singleton_append, ← split] at cut
      obtain ⟨early', late', w', parts, below, seen⟩ :=
        instant_observed simulates table_observed matched (runs_trans reached ran) cut atInstant
      obtain ⟨clock, rows⟩ := Prod.mk.inj seen
      refine .inr ⟨early', late', w', parts, below, ?_, ?_⟩
      · have began := middle.clock
        omega
      · rw [same, State.modeRow, rows]

/-- A read through a session, a write by another process, and half the lifetime. -/
def readThenSwitched : List Event :=
  [.getStart 0 autoModeKey .null, .execute 0 true, .commit 0 .done, .close 0 true,
    .writeRow autoModeKey (.str "off"), .tick 5000000]

theorem session_within_lifetime_cached : ∃ s, runs Service.step quiet readThenSwitched = some s ∧
    ((Json.str "shadow" = shadowMode ∧ (s.engine = false ∨ .close 1 false ∈ ([] : List Event) ∨ .leave 1 ∈ ([] : List Event))) ∨
      ∃ early late w, readThenSwitched ++ [.getStart 1 autoModeKey .null] = early ++ late ∧
        runs Service.step quiet early = some w ∧ s.clock ≤ w.clock + ttl ∧
        Json.str "shadow" = (w.rows autoModeKey).getD shadowMode) :=
  ⟨_, rfl, session_within_lifetime ⟨fun _ => rfl, fun _ => rfl⟩ rfl rfl rfl⟩

end Nipoto.Sessions
