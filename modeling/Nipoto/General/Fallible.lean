import Mathlib.Data.List.Forall2

/-! # Computations that may fail

When a computation succeeds, from its parts, and what all of its errors have in
common.
-/

namespace Nipoto.Fallible

variable {ε α β : Type} {x : Except ε α} {f : α → Except ε β} {E : ε → Prop}

def Succeeds (x : Except ε α) : Prop := ∃ a, x = .ok a

/-- Every error of `x` is in `E`. -/
def FailsIn (E : ε → Prop) (x : Except ε α) : Prop := ∀ e, x = .error e → E e

@[simp] theorem succeeds_ok (a : α) : Succeeds (.ok a : Except ε α) := ⟨a, rfl⟩

@[simp] theorem succeeds_pure (a : α) : Succeeds (pure a : Except ε α) := ⟨a, rfl⟩

@[simp] theorem not_succeeds_error (e : ε) : ¬ Succeeds (.error e : Except ε α) := by
  rintro ⟨a, failed⟩
  cases failed

theorem bind_eq_ok {b : β} : x >>= f = .ok b ↔ ∃ a, x = .ok a ∧ f a = .ok b := by
  cases x with
  | error e => simp [bind, Except.bind]
  | ok a => simp [bind, Except.bind]

theorem mapError_eq_ok {ε' : Type} {g : ε → ε'} {a : α} : x.mapError g = .ok a ↔ x = .ok a := by
  cases x <;> simp [Except.mapError]

theorem succeeds_bind : Succeeds (x >>= f) ↔ ∃ a, x = .ok a ∧ Succeeds (f a) := by
  cases x with
  | error e => simp [bind, Except.bind, Succeeds]
  | ok a => simp [bind, Except.bind]

/-- When the rest does not depend on the value. -/
theorem succeeds_seq {y : Except ε β} (same : ∀ a, Succeeds (f a) ↔ Succeeds y) :
    Succeeds (x >>= f) ↔ Succeeds x ∧ Succeeds y := by
  rw [succeeds_bind]
  constructor
  · rintro ⟨a, ok, rest⟩
    exact ⟨⟨a, ok⟩, (same a).mp rest⟩
  · rintro ⟨⟨a, ok⟩, rest⟩
    exact ⟨a, ok, (same a).mpr rest⟩

theorem failsIn_ok (a : α) : FailsIn E (.ok a : Except ε α) := by
  intro e failed
  cases failed

theorem failsIn_error {e : ε} (allowed : E e) : FailsIn E (.error e : Except ε α) := by
  intro e' failed
  cases failed
  exact allowed

theorem failsIn_bind (first : FailsIn E x) (later : ∀ a, FailsIn E (f a)) : FailsIn E (x >>= f) := by
  cases x with
  | error e =>
      intro e' failed
      cases failed
      exact first e rfl
  | ok a => exact later a

/-- Computations with no allowed error do what is allowed just when they succeed. -/
theorem failsIn_iff_succeeds {A : ε → Prop} (other : FailsIn (fun e => ¬ A e) x) :
    FailsIn A x ↔ Succeeds x := by
  cases x with
  | error e =>
      constructor
      · exact fun allowed => absurd (allowed e rfl) (other e rfl)
      · exact fun ok => absurd ok (not_succeeds_error e)
  | ok a => exact ⟨fun _ => ⟨a, rfl⟩, fun _ => failsIn_ok a⟩

theorem failsIn_map {g : α → β} (first : FailsIn E x) : FailsIn E (g <$> x) := by
  cases x with
  | error e =>
      intro e' failed
      cases failed
      exact first e rfl
  | ok a => exact failsIn_ok (g a)

theorem succeeds_mapM {l : List α} : Succeeds (l.mapM f) ↔ ∀ a ∈ l, Succeeds (f a) := by
  induction l with
  | nil => simp
  | cons a l ih =>
      have rest : ∀ b : β, Succeeds (l.mapM f >>= fun bs => pure (b :: bs)) ↔ Succeeds (l.mapM f) := by
        intro b
        simp only [succeeds_bind, succeeds_pure, and_true]
        rfl
      rw [List.mapM_cons, succeeds_seq rest, ih, List.forall_mem_cons]

theorem failsIn_mapM {l : List α} (each : ∀ a ∈ l, FailsIn E (f a)) : FailsIn E (l.mapM f) := by
  induction l with
  | nil => exact failsIn_ok []
  | cons a l ih =>
      rw [List.mapM_cons]
      refine failsIn_bind (each a List.mem_cons_self) fun b => ?_
      exact failsIn_bind (ih fun c member => each c (List.mem_cons_of_mem a member)) fun _ => failsIn_ok _

section Loop

variable {S : Type} (step : α → S → Except ε Unit × S)

/-- A step may change the state before it fails. -/
def untilError : List α → S → Except ε Unit × S
  | [], s => (.ok (), s)
  | a :: rest, s =>
      match step a s with
      | (.ok (), s) => untilError rest s
      | (.error e, s) => (.error e, s)

variable {step} {l : List α} {s : S}

/-- What every step keeps, the loop keeps. -/
theorem untilError_keeps {I : S → Prop} (keeps : ∀ a s, I s → I (step a s).2) (holds : I s) :
    I (untilError step l s).2 := by
  induction l generalizing s with
  | nil => exact holds
  | cons a rest ih =>
      have first := keeps a s holds
      rw [untilError]
      generalize step a s = result at first
      obtain ⟨_ | _, after⟩ := result
      · exact first
      · exact ih first

/-- When it depends on the items alone whether a step fails. -/
theorem untilError_ok_iff {P : α → Prop} (ok : ∀ a s, (step a s).1 = .ok () ↔ P a) :
    (untilError step l s).1 = .ok () ↔ ∀ a ∈ l, P a := by
  induction l generalizing s with
  | nil => simp [untilError]
  | cons a rest ih =>
      have first := ok a s
      rw [untilError, List.forall_mem_cons, ← first]
      generalize step a s = result
      obtain ⟨e | _, after⟩ := result
      · simp
      · simp [ih]

/-- A loop whose steps are loops. -/
theorem untilError_flatMap {inner : β → S → Except ε Unit × S} {items : α → List β}
    (same : ∀ a ∈ l, ∀ s, step a s = untilError inner (items a) s) :
    untilError step l s = untilError inner (l.flatMap items) s := by
  have append : ∀ (first later : List β) (s : S), untilError inner (first ++ later) s =
      match untilError inner first s with
      | (.ok (), s) => untilError inner later s
      | (.error e, s) => (.error e, s) := by
    intro first later
    induction first with
    | nil => exact fun _ => rfl
    | cons b first ih =>
        intro s
        rw [List.cons_append, untilError, untilError]
        generalize inner b s = result
        obtain ⟨e | _, after⟩ := result
        · rfl
        · exact ih after
  induction l generalizing s with
  | nil => rfl
  | cons a rest ih =>
      rw [untilError, List.flatMap_cons, append, same a List.mem_cons_self]
      generalize untilError inner (items a) s = result
      obtain ⟨e | _, after⟩ := result
      · rfl
      · exact ih fun a member => same a (List.mem_cons_of_mem _ member)

end Loop

end Nipoto.Fallible
