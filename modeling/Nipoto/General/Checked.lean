import Mathlib.Data.List.Forall2

/-! # Checks that collect their errors

A check goes on after an error, so that its result is a value or all the errors
there are. When a composed check passes, its parts have passed.
-/

namespace Nipoto

abbrev Checked (ε α : Type) := Except (List ε) α

namespace Checked

variable {ε α β γ : Type}

/-- Both results, or the errors of both. -/
def and : Checked ε α → Checked ε β → Checked ε (α × β)
  | .ok a, .ok b => .ok (a, b)
  | .ok _, .error e => .error e
  | .error e, .ok _ => .error e
  | .error e, .error e' => .error (e ++ e')

/-- The results for all items, or the errors of all of them. -/
def each (check : α → Checked ε β) : List α → Checked ε (List β)
  | [] => .ok []
  | a :: rest => (fun found => found.1 :: found.2) <$> (check a).and (each check rest)

theorem and_ok {x : Checked ε α} {y : Checked ε β} {found : α × β} :
    x.and y = .ok found ↔ x = .ok found.1 ∧ y = .ok found.2 := by
  obtain ⟨a, b⟩ := found
  cases x <;> cases y <;> simp [and]

theorem map_ok {x : Checked ε α} {f : α → β} {b : β} : f <$> x = .ok b ↔ ∃ a, x = .ok a ∧ f a = b := by
  cases x <;> simp [Functor.map, Except.map]

theorem and_map_left (f : α → γ) (x : Checked ε α) (y : Checked ε β) :
    (f <$> x).and y = Prod.map f id <$> x.and y := by
  cases x <;> cases y <;> rfl

theorem and_map_right (f : β → γ) (x : Checked ε α) (y : Checked ε β) :
    x.and (f <$> y) = Prod.map id f <$> x.and y := by
  cases x <;> cases y <;> rfl

theorem each_ok {check : α → Checked ε β} {items : List α} {found : List β} :
    each check items = .ok found ↔ List.Forall₂ (fun a b => check a = .ok b) items found := by
  induction items generalizing found with
  | nil => cases found <;> simp [each]
  | cons a rest ih =>
      rw [each, map_ok]
      constructor
      · rintro ⟨⟨b, later⟩, both, rfl⟩
        obtain ⟨first, others⟩ := and_ok.mp both
        exact .cons first (ih.mp others)
      · rintro (_ | ⟨first, others⟩)
        exact ⟨(_, _), and_ok.mpr ⟨first, ih.mpr others⟩, rfl⟩

end Checked

end Nipoto
