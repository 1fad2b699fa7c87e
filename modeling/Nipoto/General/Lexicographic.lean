import Mathlib.Logic.Function.Basic

/-! # Lists in lexicographic order

The order of lists whose elements are ranked by numbers.
-/

namespace Nipoto.Lexicographic

/-- The rank of a character in a text. -/
theorem toNat_injective : Function.Injective Char.toNat := fun _ _ same => Char.toNat_inj.mp same

variable {α : Type} [DecidableEq α] (rank : α → Nat)

/-- `a <= b`. -/
def atMost (a b : List α) : Bool := !List.lex b a fun x y => decide (rank x < rank y)

variable {rank} {a b c : List α}

@[simp] theorem atMost_nil : atMost rank [] b = true := by simp [atMost]

@[simp] theorem not_atMost_nil (x : α) : atMost rank (x :: a) [] = false := by simp [atMost]

theorem atMost_cons (x y : α) :
    atMost rank (x :: a) (y :: b) = true ↔ rank x ≤ rank y ∧ (y = x → atMost rank a b = true) := by
  simp [atMost, List.lex, imp_iff_not_or]

theorem atMost_total : (atMost rank a b || atMost rank b a) = true := by
  induction a generalizing b with
  | nil => simp
  | cons x a ih =>
      cases b with
      | nil => simp
      | cons y b =>
          have rest := ih (b := b)
          simp only [Bool.or_eq_true, atMost_cons] at rest ⊢
          by_cases same : x = y
          · subst same
            simpa using rest
          · have other : y ≠ x := Ne.symm same
            rcases Nat.le_total (rank x) (rank y) with low | high
            · exact .inl ⟨low, fun equal => absurd equal other⟩
            · exact .inr ⟨high, fun equal => absurd equal same⟩

variable (injective : Function.Injective rank)

include injective

theorem atMost_trans (first : atMost rank a b = true) (second : atMost rank b c = true) : atMost rank a c = true := by
  induction a generalizing b c with
  | nil => simp
  | cons x a ih =>
      cases b with
      | nil => simp at first
      | cons y b =>
          cases c with
          | nil => simp at second
          | cons z c =>
              obtain ⟨lowXY, restXY⟩ := (atMost_cons x y).mp first
              obtain ⟨lowYZ, restYZ⟩ := (atMost_cons y z).mp second
              refine (atMost_cons x z).mpr ⟨Nat.le_trans lowXY lowYZ, ?_⟩
              rintro rfl
              obtain rfl : y = z := injective (Nat.le_antisymm lowYZ lowXY)
              exact ih (restXY rfl) (restYZ rfl)

theorem atMost_antisymm (first : atMost rank a b = true) (second : atMost rank b a = true) : a = b := by
  induction a generalizing b with
  | nil =>
      cases b with
      | nil => rfl
      | cons y b => simp at second
  | cons x a ih =>
      cases b with
      | nil => simp at first
      | cons y b =>
          obtain ⟨low, rest⟩ := (atMost_cons x y).mp first
          obtain ⟨high, rest'⟩ := (atMost_cons y x).mp second
          obtain rfl : x = y := injective (Nat.le_antisymm low high)
          rw [ih (rest rfl) (rest' rfl)]

end Nipoto.Lexicographic
