import Mathlib.Data.List.Basic

/-! # Cutting a list at marked items

The items before the first marked one, and one portion after each marked item.
-/

namespace Nipoto.Divisions

variable {α β : Type}

/-- A marked item, its mark, and the plain items that follow it. -/
structure Portion (IsMarked : α → β → Prop) where
  item : α
  mark : β
  rest : List α
  marked : IsMarked item mark
  plain : ∀ x ∈ rest, ∀ m, ¬ IsMarked x m

structure Division (IsMarked : α → β → Prop) (xs : List α) where
  first : List α
  portions : List (Portion IsMarked)
  plain : ∀ x ∈ first, ∀ m, ¬ IsMarked x m
  whole : xs = first ++ portions.flatMap fun p => p.item :: p.rest

variable {IsMarked : α → β → Prop}

/-- The items that are not marked, portion by portion. -/
def Division.plainItems {xs : List α} (division : Division IsMarked xs) : List α :=
  division.first ++ division.portions.flatMap Portion.rest

theorem exists_division (IsMarked : α → β → Prop) (xs : List α) : Nonempty (Division IsMarked xs) := by
  induction xs with
  | nil => exact ⟨⟨[], [], by simp, rfl⟩⟩
  | cons x xs ih =>
      obtain ⟨⟨first, portions, plain, rfl⟩⟩ := ih
      by_cases marked : ∃ m, IsMarked x m
      · obtain ⟨m, marked⟩ := marked
        exact ⟨⟨[], ⟨x, m, first, marked, plain⟩ :: portions, by simp, rfl⟩⟩
      · refine ⟨⟨x :: first, portions, ?_, rfl⟩⟩
        intro y member m markedY
        cases List.mem_cons.mp member with
        | inl here => exact marked ⟨m, here ▸ markedY⟩
        | inr later => exact plain y later m markedY

open scoped Classical in
/-- The plain items of a division are the items without a mark, whatever the division. -/
theorem Division.plainItems_eq {xs : List α} (division : Division IsMarked xs) :
    division.plainItems = xs.filter fun x => ¬ ∃ m, IsMarked x m := by
  have keep : ∀ ys : List α, (∀ y ∈ ys, ∀ m, ¬ IsMarked y m) →
      ys.filter (fun x => decide (¬ ∃ m, IsMarked x m)) = ys := by
    intro ys plain
    rw [List.filter_eq_self]
    intro y member
    exact decide_eq_true fun ⟨m, marked⟩ => plain y member m marked
  have drop : ∀ p : Portion IsMarked, (p.item :: p.rest).filter (fun x => decide (¬ ∃ m, IsMarked x m)) = p.rest := by
    intro p
    rw [List.filter_cons_of_neg (by simpa using ⟨p.mark, p.marked⟩), keep p.rest p.plain]
  obtain ⟨first, portions, plain, rfl⟩ := division
  rw [List.filter_append, keep first plain, List.filter_flatMap, plainItems]
  simp only [drop]

end Nipoto.Divisions
