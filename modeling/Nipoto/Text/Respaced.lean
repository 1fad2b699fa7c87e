import Mathlib.Data.List.Forall2
import Nipoto.Text.Interior

/-! # Texts with the same solids and other gaps

A text in which some runs of separators are exchanged for others. Its cells have
the same solids, and their gaps are exchanged in the same way.
-/

namespace Nipoto.Text.Gaps

variable {α : Type}

/-- Kept characters stay, and the first word of an exchange may become the second. -/
inductive Respaced (Keep : α → Prop) (Exchange : List α → List α → Prop) : List α → List α → Prop
  | nil : Respaced Keep Exchange [] []
  | keep {c s t} (kept : Keep c) (rest : Respaced Keep Exchange s t) : Respaced Keep Exchange (c :: s) (c :: t)
  | exchange {u v s t} (changed : Exchange u v) (rest : Respaced Keep Exchange s t) :
      Respaced Keep Exchange (u ++ s) (v ++ t)

variable {Keep : α → Prop} {Exchange : List α → List α → Prop} {s t : List α}

theorem Respaced.same {a : List α} (kept : ∀ c ∈ a, Keep c) (rest : Respaced Keep Exchange s t) :
    Respaced Keep Exchange (a ++ s) (a ++ t) := by
  induction a with
  | nil => exact rest
  | cons c a ih => exact .keep (kept c List.mem_cons_self) (ih fun d member => kept d (List.mem_cons_of_mem c member))

theorem Respaced.nil_iff (some : ∀ u v, Exchange u v → u ≠ [] ∧ v ≠ []) (related : Respaced Keep Exchange s t) :
    s = [] ↔ t = [] := by
  cases related with
  | nil => exact Iff.rfl
  | keep => simp
  | exchange changed _ => simp [(some _ _ changed).1, (some _ _ changed).2]

/-- Cells with the same solids and related gaps. -/
abbrev SameCells (R : List α → List α → Prop) : List (Cell α) → List (Cell α) → Prop :=
  List.Forall₂ fun c d => c.2 = d.2 ∧ R c.1 d.1

variable {sep word : α → Bool} {R : List α → List α → Prop} {cs ds : List (Cell α)}

theorem cut_prepend {u : List α} (gap : IsGap sep u) (t : List α) :
    (cut sep (u ++ t)).1 =
      match (cut sep t).1 with
      | [] => []
      | (g, x) :: cs => (u ++ g, x) :: cs := by
  induction u with
  | nil =>
      rw [List.nil_append]
      split <;> simp_all
  | cons c u ih =>
      have rest := ih fun d member => gap d (List.mem_cons_of_mem c member)
      rw [List.cons_append, cut, if_pos (gap c List.mem_cons_self)]
      cases whole : cut sep (u ++ t) with
      | mk cells last =>
          rw [whole] at rest
          cases later : (cut sep t).1 with
          | nil =>
              rw [later] at rest
              simp only at rest
              rw [rest]
          | cons d ds =>
              rw [later] at rest
              simp only at rest
              rw [rest]
              rfl

theorem SameCells.prepend {u v : List α} (gapU : IsGap sep u) (gapV : IsGap sep v)
    (related : ∀ g g', R g g' → R (u ++ g) (v ++ g')) (same : SameCells R (cut sep s).1 (cut sep t).1) :
    SameCells R (cut sep (u ++ s)).1 (cut sep (v ++ t)).1 := by
  rw [cut_prepend gapU, cut_prepend gapV]
  generalize (cut sep s).1 = cs, (cut sep t).1 = ds at same
  cases same with
  | nil => exact .nil
  | cons here rest => exact .cons ⟨here.1, related _ _ here.2⟩ rest

theorem cut_cons_solid {x : α} (solid : sep x = false) (t : List α) : (cut sep (x :: t)).1 = ([], x) :: (cut sep t).1 := by
  rw [cut, if_neg (by simp [solid])]

/-- The gaps of related texts are related in the same way. -/
theorem Respaced.cells (gaps : ∀ u v, Exchange u v → IsGap sep u ∧ IsGap sep v)
    (related : Respaced Keep Exchange s t) :
    SameCells (Respaced Keep Exchange) (cut sep s).1 (cut sep t).1 := by
  induction related with
  | nil => exact .nil
  | @keep c s t kept _ ih =>
      cases separator : sep c with
      | true =>
          have gap : IsGap sep [c] := by simpa [IsGap] using separator
          exact ih.prepend gap gap fun _ _ => .keep kept
      | false =>
          rw [cut_cons_solid separator, cut_cons_solid separator]
          exact .cons ⟨rfl, .nil⟩ ih
  | exchange changed _ ih =>
      exact ih.prepend (gaps _ _ changed).1 (gaps _ _ changed).2 fun _ _ => .exchange changed

theorem SameCells.rightRun_eq (empty : ∀ g g', R g g' → (g = [] ↔ g' = [])) (same : SameCells R cs ds) :
    rightRun word cs = rightRun word ds := by
  induction same with
  | nil => rfl
  | @cons c d cs ds here rest ih =>
      obtain ⟨g, x⟩ := c
      obtain ⟨g', y⟩ := d
      obtain ⟨rfl, -⟩ : x = y ∧ R g g' := here
      have later : onward word cs = onward word ds := by
        cases rest with
        | nil => rfl
        | @cons c d cs ds here _ =>
            have both := empty _ _ here.2
            by_cases none : c.1 = []
            · simp [onward, none, both.mp none, ih]
            · simp [onward, none, mt both.mpr none]
      rw [rightRun_cons, rightRun_cons, later]

/-- Two texts with related gaps come out the same if what is enough holds of every gap, and
    what is needed holds of every gap if they do. -/
theorem SameCells.mapCells_eq {k : Pass α} {Enough Needed : (left gap right : List α) → Prop}
    (empty : ∀ g g', R g g' → (g = [] ↔ g' = []))
    (enough : ∀ l g g' r, IsGap sep g' → R g g' → Enough l g r → k l g r = k l g' r)
    (needed : ∀ l g g' r, IsGap sep g' → R g g' → k l g r = k l g' r → Needed l g r)
    (properAfter : Proper sep ds) (same : SameCells R cs ds) (run : List α) :
    (EveryGap word Enough run cs → mapCells word k run cs = mapCells word k run ds) ∧
      (mapCells word k run cs = mapCells word k run ds → EveryGap word Needed run cs) := by
  induction same generalizing run with
  | nil => simp [mapCells, EveryGap]
  | @cons c d cs ds here rest ih =>
      obtain ⟨g, x⟩ := c
      obtain ⟨g', y⟩ := d
      obtain ⟨rfl, related⟩ : x = y ∧ R g g' := here
      have both : SameCells R ((g, x) :: cs) ((g', x) :: ds) := .cons ⟨rfl, related⟩ rest
      have step : leftStep word run g x = leftStep word run g' x := by
        by_cases none : g = []
        · rw [none, (empty _ _ related).mp none]
        · simp [leftStep, none, mt (empty _ _ related).mpr none]
      have later := ih (properAfter.tail sep) (leftStep word run g x)
      have gap' := (properAfter.head sep).1
      rw [mapCells, mapCells, EveryGap, EveryGap, ← both.rightRun_eq empty, ← step, List.cons.injEq, Prod.mk.injEq]
      constructor
      · rintro ⟨first, others⟩
        exact ⟨⟨enough _ _ _ _ gap' related first, rfl⟩, later.1 others⟩
      · rintro ⟨⟨first, -⟩, others⟩
        exact ⟨needed _ _ _ _ gap' related first, later.2 others⟩

theorem infix_parted {w g t : List α} {x : α} (outside : x ∉ w) : w <:+: g ++ x :: t ↔ w <:+: g ∨ w <:+: t := by
  constructor
  · rintro ⟨before, after, split⟩
    rcases List.append_eq_append_iff.mp split with ⟨z, rfl, -⟩ | ⟨z, split', tail⟩
    · exact .inl ⟨before, z, rfl⟩
    · cases z with
      | nil => exact .inl ⟨before, [], by simpa using split'⟩
      | cons y z =>
          obtain ⟨rfl, rfl⟩ := List.cons.inj tail
          rcases List.append_eq_append_iff.mp split' with ⟨v, -, rfl⟩ | ⟨v, -, tail'⟩
          · exact absurd (by simp) outside
          · cases v with
            | nil =>
                rw [List.nil_append] at tail'
                exact absurd (tail' ▸ List.mem_cons_self) outside
            | cons y v =>
                obtain ⟨rfl, rfl⟩ := List.cons.inj tail'
                exact .inr ⟨v, after, by simp⟩
  · rintro (inGap | later)
    · exact inGap.trans (List.prefix_append _ _).isInfix
    · exact later.trans ((List.suffix_cons x t).trans (List.suffix_append g _)).isInfix

/-- A word of separators stands in a text just if it stands in one of its gaps. -/
theorem infix_render {w : List α} (gap : IsGap sep w) (proper : Proper sep cs) (last : List α) :
    w <:+: render cs last ↔ (∃ c ∈ cs, w <:+: c.1) ∨ w <:+: last := by
  induction cs with
  | nil => simp [render]
  | cons c cs ih =>
      obtain ⟨g, x⟩ := c
      have outside : x ∉ w := by
        intro member
        have separator := gap x member
        rw [(proper.head sep).2] at separator
        exact absurd separator (by simp)
      rw [render, infix_parted outside, ih (proper.tail sep)]
      simp [or_assoc]

theorem forall_mapCells {k : Pass α} {P : List α → Prop} (run : List α) (cs : List (Cell α)) :
    (∀ c ∈ mapCells word k run cs, P c.1) ↔ EveryGap word (fun l g r => P (k l g r)) run cs := by
  induction cs generalizing run with
  | nil => simp [mapCells, EveryGap]
  | cons c cs ih =>
      obtain ⟨g, x⟩ := c
      rw [mapCells, EveryGap, List.forall_mem_cons, ih]

end Nipoto.Text.Gaps
