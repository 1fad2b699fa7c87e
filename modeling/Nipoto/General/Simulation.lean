import Nipoto.General.Transitions

/-! # Simulations

A run of one system is matched by a run of another one above it. What an action
stands for there may depend on the rest of the run: a system can settle later what
has happened before.
-/

namespace Nipoto.Simulation

open Transitions

variable {S T A B : Type}

/-- The actions above that a run stands for. -/
def translate (step : S → A → Option S) (means : S → A → List A → List B) : S → List A → List B
  | _, [] => []
  | s, a :: rest => means s a rest ++ ((step s a).map fun t => translate step means t rest).getD []

/-- `related rest s t` relates two states in a run that goes on with `rest`. -/
structure Simulates (step : S → A → Option S) (above : T → B → Option T) (means : S → A → List A → List B)
    (related : List A → S → T → Prop) : Prop where
  follow : ∀ {a rest s s' u t}, related (a :: rest) s t → step s a = some s' → runs step s' rest = some u →
    ∃ t', runs above t (means s a rest) = some t' ∧ related rest s' t'

variable {step : S → A → Option S} {above : T → B → Option T} {means : S → A → List A → List B}
  {related : List A → S → T → Prop}

theorem translate_cons {a : A} {rest : List A} {s s' : S} (enabled : step s a = some s') :
    translate step means s (a :: rest) = means s a rest ++ translate step means s' rest := by
  rw [translate, enabled]
  rfl

/-- Up to a state of the run, and on from there. -/
theorem runs_simulated_to (simulates : Simulates step above means related) {before after : List A} {s u w : S} {t : T}
    (start : related (before ++ after) s t) (reached : runs step s before = some u)
    (later : runs step u after = some w) :
    ∃ part v, translate step means s (before ++ after) = part ++ translate step means u after ∧
      runs above t part = some v ∧ related after u v := by
  induction before generalizing s t with
  | nil =>
      obtain rfl := Option.some.inj reached
      exact ⟨[], t, rfl, rfl, start⟩
  | cons a rest ih =>
      obtain ⟨s', enabled, next⟩ := runs_cons reached
      obtain ⟨t', first, related'⟩ := simulates.follow start enabled (runs_trans next later)
      obtain ⟨part, v, split, second, last⟩ := ih related' next
      refine ⟨means s a (rest ++ after) ++ part, v, ?_, runs_trans first second, last⟩
      rw [List.cons_append, translate_cons enabled, split, List.append_assoc]

theorem runs_simulated (simulates : Simulates step above means related) {actions : List A} {s u : S} {t : T}
    (start : related actions s t) (reached : runs step s actions = some u) :
    ∃ v, runs above t (translate step means s actions) = some v ∧ related [] u v := by
  rw [← List.append_nil actions] at start ⊢
  obtain ⟨part, v, split, ran, last⟩ := runs_simulated_to simulates start reached rfl
  rw [split, translate, List.append_nil]
  exact ⟨v, ran, last⟩

theorem mem_translate {actions : List A} {s u : S} {b : B} (reached : runs step s actions = some u)
    (member : b ∈ translate step means s actions) :
    ∃ before a after t, actions = before ++ a :: after ∧ runs step s before = some t ∧ (step t a).isSome ∧
      b ∈ means t a after := by
  induction actions generalizing s with
  | nil => cases member
  | cons a rest ih =>
      obtain ⟨s', enabled, later⟩ := runs_cons reached
      rw [translate_cons enabled] at member
      cases List.mem_append.mp member with
      | inl here => exact ⟨[], a, rest, s, rfl, rfl, by rw [enabled]; rfl, here⟩
      | inr there =>
          obtain ⟨before, a', after, t, split, ran, can, found⟩ := ih later there
          refine ⟨a :: before, a', after, t, by rw [split]; rfl, ?_, can, found⟩
          rw [runs, enabled]
          exact ran

/-- Nothing is seen within what an action stands for that is not seen before it or after it. -/
structure Observed {α : Type} (step : S → A → Option S) (above : T → B → Option T) (means : S → A → List A → List B)
    (related : List A → S → T → Prop) (see : S → α) (seeAbove : T → α) : Prop where
  same : ∀ {rest s t}, related rest s t → seeAbove t = see s
  within : ∀ {a rest s s' t v early late}, related (a :: rest) s t → step s a = some s' →
    means s a rest = early ++ late → late ≠ [] → runs above t early = some v → seeAbove v = see s

/-- What is seen at an instant of the run above is seen at an instant of the run below. -/
theorem instant_observed {α : Type} {see : S → α} {seeAbove : T → α} (simulates : Simulates step above means related)
    (observed : Observed step above means related see seeAbove) {actions : List A} {s u : S} {t v : T}
    {early late : List B} (start : related actions s t) (reached : runs step s actions = some u)
    (split : translate step means s actions = early ++ late) (ran : runs above t early = some v) :
    ∃ before after w, actions = before ++ after ∧ runs step s before = some w ∧ seeAbove v = see w := by
  induction actions generalizing s t early with
  | nil =>
      obtain ⟨rfl, -⟩ := List.append_eq_nil_iff.mp split.symm
      obtain rfl := Option.some.inj ran
      exact ⟨[], [], s, rfl, rfl, observed.same start⟩
  | cons a rest ih =>
      obtain ⟨s', enabled, later⟩ := runs_cons reached
      obtain ⟨t', first, next⟩ := simulates.follow start enabled later
      rw [translate_cons enabled] at split
      have further : ∀ {more : List B}, translate step means s' rest = more ++ late → runs above t' more = some v →
          ∃ before after w, a :: rest = before ++ after ∧ runs step s before = some w ∧ seeAbove v = see w := by
        intro more cut goesOn
        obtain ⟨before, after, w, parts, below, seen⟩ := ih next later cut goesOn
        refine ⟨a :: before, after, w, by rw [parts]; rfl, ?_, seen⟩
        rw [runs, enabled]
        exact below
      rcases List.append_eq_append_iff.mp split with ⟨more, rfl, cut⟩ | ⟨rest', cut, tail⟩
      · rw [runs_append first] at ran
        exact further cut ran
      · by_cases whole : rest' = []
        · subst whole
          rw [List.append_nil] at cut
          rw [← cut, first] at ran
          obtain rfl := Option.some.inj ran
          exact @further [] tail.symm rfl
        · exact ⟨[], a :: rest, s, rfl, rfl, observed.within start enabled cut whole ran⟩

end Nipoto.Simulation
