import Mathlib.Data.List.Infix

/-! # Labelled transitions

Runs of a system whose actions may be disabled. The rules carry a fact from
single actions to whole runs.
-/

namespace Nipoto.Transitions

variable {S A : Type} (step : S → A → Option S)

/-- The state after some actions, if each was enabled when it was taken. -/
def runs : S → List A → Option S
  | s, [] => some s
  | s, a :: rest => (step s a).bind fun t => runs t rest

/-- `P` holds in the first state of a run and after each action. -/
def Throughout (P : S → Prop) (s : S) (actions : List A) : Prop :=
  ∀ before after t, actions = before ++ after → runs step s before = some t → P t

variable {step} {s t u : S} {P : S → Prop} {a : A} {actions before after : List A}

theorem runs_append (first : runs step s before = some t) : runs step s (before ++ after) = runs step t after := by
  induction before generalizing s with
  | nil =>
      obtain rfl := Option.some.inj first
      rfl
  | cons a before ih =>
      obtain ⟨v, enabled, rest⟩ := Option.bind_eq_some_iff.mp first
      rw [List.cons_append, runs, enabled]
      exact ih rest

theorem runs_trans (first : runs step s before = some t) (second : runs step t after = some u) :
    runs step s (before ++ after) = some u := (runs_append first).trans second

theorem runs_cons (whole : runs step s (a :: actions) = some u) :
    ∃ t, step s a = some t ∧ runs step t actions = some u := Option.bind_eq_some_iff.mp whole

theorem runs_one (enabled : step s a = some t) : runs step s [a] = some t := by simp [runs, enabled]

theorem throughout_start (always : Throughout step P s actions) : P s := always [] actions s rfl rfl

theorem throughout_nil (here : P s) : Throughout step P s [] := by
  intro before after t split reached
  obtain ⟨rfl, -⟩ := List.append_eq_nil_iff.mp split.symm
  exact Option.some.inj reached ▸ here

theorem throughout_cons (here : P s) (enabled : step s a = some t) (later : Throughout step P t actions) :
    Throughout step P s (a :: actions) := by
  intro before after u split reached
  cases before with
  | nil => exact Option.some.inj reached ▸ here
  | cons b before =>
      obtain ⟨rfl, rest⟩ := List.cons.inj split
      rw [runs, enabled] at reached
      exact later before after u rest reached

theorem throughout_tail (always : Throughout step P s (a :: actions)) (enabled : step s a = some t) :
    Throughout step P t actions := by
  intro before after u split reached
  refine always (a :: before) after u (by rw [split]; rfl) ?_
  rw [runs, enabled]
  exact reached

/-- The invariant rule, for runs that stay in `P` and take actions in `Q`. -/
theorem runs_invariant {J : S → Prop} {Q : A → Prop} (start : J s)
    (next : ∀ s a t, J s → P s → Q a → step s a = some t → J t)
    (always : Throughout step P s actions) (allowed : ∀ a ∈ actions, Q a)
    (reached : runs step s actions = some t) : J t := by
  induction actions generalizing s with
  | nil =>
      obtain rfl := Option.some.inj reached
      exact start
  | cons a rest ih =>
      obtain ⟨u, enabled, later⟩ := runs_cons reached
      have first := next s a u start (throughout_start always) (allowed a List.mem_cons_self) enabled
      exact ih first (throughout_tail always enabled)
        (fun b member => allowed b (List.mem_cons_of_mem a member)) later

/-- The invariant rule for facts about the actions so far. -/
theorem runs_history {J : List A → S → Prop} {past : List A} (start : J past s)
    (next : ∀ past s a t, J past s → step s a = some t → J (past ++ [a]) t)
    (reached : runs step s actions = some t) : J (past ++ actions) t := by
  induction actions generalizing s past with
  | nil =>
      obtain rfl := Option.some.inj reached
      rwa [List.append_nil]
  | cons a rest ih =>
      obtain ⟨u, enabled, later⟩ := runs_cons reached
      have grown := ih (next past s a u start enabled) later
      rwa [List.append_assoc] at grown

end Nipoto.Transitions
