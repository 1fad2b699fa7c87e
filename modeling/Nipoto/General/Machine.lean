import Mathlib.Data.List.Infix

/-! # Deterministic machines

A machine takes one input at a time, answers it and moves to its next state. The
rules carry a fact from single steps to whole runs.
-/

namespace Nipoto.Machine

variable {S I O : Type} (step : S → I → O × S)

/-- The state after some inputs. -/
def run : S → List I → S
  | s, [] => s
  | s, i :: rest => run (step s i).2 rest

/-- The inputs with their answers. -/
def answers : S → List I → List (I × O)
  | _, [] => []
  | s, i :: rest => (i, (step s i).1) :: answers (step s i).2 rest

/-- Every step is taken where `P` holds of the state and the input. -/
def Along (P : S → I → Prop) : S → List I → Prop
  | _, [] => True
  | s, i :: rest => P s i ∧ Along P (step s i).2 rest

variable {step} {s : S} {P : S → I → Prop}

theorem run_append (before after : List I) : run step s (before ++ after) = run step (run step s before) after := by
  induction before generalizing s with
  | nil => rfl
  | cons i before ih => exact ih

theorem answers_inputs (inputs : List I) : (answers step s inputs).map Prod.fst = inputs := by
  induction inputs generalizing s with
  | nil => rfl
  | cons i rest ih => simp only [answers, List.map_cons, ih]

theorem answers_append (before after : List I) :
    answers step s (before ++ after) = answers step s before ++ answers step (run step s before) after := by
  induction before generalizing s with
  | nil => rfl
  | cons i before ih => simp only [List.cons_append, answers, run, ih]

theorem along_append {before after : List I} :
    Along step P s (before ++ after) ↔ Along step P s before ∧ Along step P (run step s before) after := by
  induction before generalizing s with
  | nil => simp [Along, run]
  | cons i before ih => simp only [List.cons_append, Along, run, ih, and_assoc]

theorem along_iff {inputs : List I} :
    Along step P s inputs ↔
      ∀ before i after, inputs = before ++ i :: after → P (run step s before) i := by
  constructor
  · intro along before i after split
    rw [split, along_append] at along
    exact along.2.1
  · intro everywhere
    induction inputs generalizing s with
    | nil => trivial
    | cons i rest ih =>
        refine ⟨everywhere [] i rest rfl, ih ?_⟩
        intro before j after split
        exact everywhere (i :: before) j after (by rw [split]; rfl)

/-- The invariant rule. -/
theorem run_invariant {J : S → Prop} (start : J s) {inputs : List I}
    (next : ∀ s i, J s → P s i → J (step s i).2) (along : Along step P s inputs) :
    J (run step s inputs) := by
  induction inputs generalizing s with
  | nil => exact start
  | cons i rest ih => exact ih (next s i start along.1) along.2

/-- The invariant rule for facts about what was answered so far. -/
theorem answers_invariant {Inv : List (I × O) → S → Prop} {past : List (I × O)} (start : Inv past s)
    (next : ∀ past s i, Inv past s → Inv (past ++ [(i, (step s i).1)]) (step s i).2) (inputs : List I) :
    Inv (past ++ answers step s inputs) (run step s inputs) := by
  induction inputs generalizing s past with
  | nil => simpa [answers, run] using start
  | cons i rest ih =>
      have later := ih (next past s i start)
      rw [List.append_assoc] at later
      exact later

end Nipoto.Machine
