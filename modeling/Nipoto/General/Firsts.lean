import Mathlib.Data.List.Infix

/-! # The first item of each key

The items of a list whose key does not occur before them.
-/

namespace Nipoto.Firsts

variable {α κ : Type} [DecidableEq κ] (key : α → κ)

def firsts : List α → List α
  | [] => []
  | a :: rest => a :: (firsts rest).filter fun b => key b ≠ key a

variable {key} {l : List α}

theorem firsts_sublist (l : List α) : (firsts key l).Sublist l := by
  induction l with
  | nil => exact List.Sublist.refl []
  | cons a rest ih => exact ((List.filter_sublist).trans ih).cons_cons a

theorem mem_of_mem_firsts {a : α} (member : a ∈ firsts key l) : a ∈ l := (firsts_sublist l).subset member

/-- Every key has its first item. -/
theorem exists_first {a : α} (member : a ∈ l) : ∃ b ∈ firsts key l, key b = key a := by
  induction l with
  | nil => exact absurd member (by simp)
  | cons c rest ih =>
      by_cases same : key a = key c
      · exact ⟨c, List.mem_cons_self, same.symm⟩
      · have later : a ∈ rest := by
          cases List.mem_cons.mp member with
          | inl here => exact absurd (congrArg key here) same
          | inr later => exact later
        obtain ⟨b, first, keyEq⟩ := ih later
        have other : key b ≠ key c := fun equal => same (keyEq.symm.trans equal)
        exact ⟨b, List.mem_cons_of_mem c (List.mem_filter.mpr ⟨first, by simpa using other⟩), keyEq⟩

/-- Two first items of one key are the same item. -/
theorem first_unique {a b : α} (firstA : a ∈ firsts key l) (firstB : b ∈ firsts key l)
    (same : key a = key b) : a = b := by
  induction l with
  | nil => exact absurd firstA (by simp [firsts])
  | cons c rest ih =>
      have later : ∀ {d : α}, d ∈ firsts key (c :: rest) → d = c ∨ d ∈ firsts key rest ∧ key d ≠ key c := by
        intro d member
        cases List.mem_cons.mp member with
        | inl here => exact .inl here
        | inr after => exact .inr (by simpa using List.mem_filter.mp after)
      cases later firstA with
      | inl hereA =>
          cases later firstB with
          | inl hereB => rw [hereA, hereB]
          | inr laterB => exact absurd (by rw [← same, hereA]) laterB.2
      | inr laterA =>
          cases later firstB with
          | inl hereB => exact absurd (by rw [same, hereB]) laterA.2
          | inr laterB => exact ih laterA.1 laterB.1

theorem firsts_distinct (l : List α) : ((firsts key l).map key).Nodup := by
  induction l with
  | nil => exact List.nodup_nil
  | cons a rest ih =>
      rw [firsts, List.map_cons, List.nodup_cons]
      constructor
      · intro again
        obtain ⟨b, member, same⟩ := List.mem_map.mp again
        exact absurd same (by simpa using (List.mem_filter.mp member).2)
      · exact ih.sublist (List.filter_sublist.map key)

theorem firsts_concat_fresh {a : α} (fresh : ∀ b ∈ l, key b ≠ key a) :
    firsts key (l ++ [a]) = firsts key l ++ [a] := by
  induction l with
  | nil => rfl
  | cons c rest ih =>
      have other : key a ≠ key c := fun same => fresh c List.mem_cons_self same.symm
      rw [List.cons_append, firsts, ih fun b member => fresh b (List.mem_cons_of_mem c member),
        List.filter_append, firsts]
      simp [other]

theorem firsts_concat_known {a : α} (known : ∃ b ∈ l, key b = key a) :
    firsts key (l ++ [a]) = firsts key l := by
  induction l with
  | nil =>
      obtain ⟨b, member, -⟩ := known
      exact absurd member (by simp)
  | cons c rest ih =>
      rw [List.cons_append, firsts, firsts]
      by_cases later : ∃ b ∈ rest, key b = key a
      · rw [ih later]
      · have same : key c = key a := by
          obtain ⟨b, member, keyEq⟩ := known
          cases List.mem_cons.mp member with
          | inl here => exact here ▸ keyEq
          | inr after => exact absurd ⟨b, after, keyEq⟩ later
        rw [firsts_concat_fresh (by simpa using later), List.filter_append]
        simp [same]

section Parts

variable {π : Type} [DecidableEq π] {part : α → π}

theorem filter_firsts_sublist (c : π) :
    ((firsts key l).filter (part · = c)).Sublist (firsts key (l.filter (part · = c))) := by
  induction l with
  | nil => exact List.Sublist.refl []
  | cons a rest ih =>
      rw [firsts, List.filter_cons]
      by_cases inside : part a = c
      · rw [if_pos (by simpa using inside), List.filter_cons_of_pos (by simpa using inside), firsts,
          List.filter_filter]
        refine List.Sublist.cons_cons a ?_
        have kept := ih.filter fun b => decide (key b ≠ key a)
        rw [List.filter_filter] at kept
        simpa only [Bool.and_comm] using kept
      · rw [if_neg (by simpa using inside), List.filter_cons_of_neg (by simpa using inside)]
        exact (List.filter_sublist.filter _).trans ih

theorem filter_firsts_of_separate (separate : ∀ a ∈ l, ∀ b ∈ l, key a = key b → part a = part b) (c : π) :
    (firsts key l).filter (part · = c) = firsts key (l.filter (part · = c)) := by
  induction l with
  | nil => rfl
  | cons a rest ih =>
      have later := ih fun x inX y inY =>
        separate x (List.mem_cons_of_mem a inX) y (List.mem_cons_of_mem a inY)
      rw [firsts, List.filter_cons]
      by_cases inside : part a = c
      · rw [if_pos (by simpa using inside), List.filter_cons_of_pos (by simpa using inside), firsts,
          ← later, List.filter_filter, List.filter_filter]
        simp only [Bool.and_comm]
      · rw [if_neg (by simpa using inside), List.filter_cons_of_neg (by simpa using inside), ← later,
          List.filter_filter]
        apply List.filter_congr
        intro b first
        have inRest := List.mem_cons_of_mem a (mem_of_mem_firsts first)
        by_cases here : part b = c
        · have other : key b ≠ key a := fun same =>
            inside ((separate b inRest a List.mem_cons_self same).symm.trans here)
          simp [here, other]
        · simp [here]

/-- First items can be taken part by part just when no key is in two parts. -/
theorem filter_firsts_iff :
    (∀ c, ((firsts key l).filter (part · = c)).length = (firsts key (l.filter (part · = c))).length) ↔
      ∀ a ∈ l, ∀ b ∈ l, key a = key b → part a = part b := by
  constructor
  · intro lengths a inA b inB same
    have first : ∀ x ∈ l, ∃ y ∈ firsts key l, key y = key x ∧ part y = part x := by
      intro x inX
      have inPart : x ∈ l.filter (part · = part x) := List.mem_filter.mpr ⟨inX, by simp⟩
      obtain ⟨y, yFirst, keyEq⟩ := @exists_first α κ _ key _ x inPart
      rw [← (filter_firsts_sublist (part x)).eq_of_length (lengths (part x))] at yFirst
      obtain ⟨inFirsts, partEq⟩ := List.mem_filter.mp yFirst
      exact ⟨y, inFirsts, keyEq, by simpa using partEq⟩
    obtain ⟨x, xFirst, xKey, xPart⟩ := first a inA
    obtain ⟨y, yFirst, yKey, yPart⟩ := first b inB
    have one : x = y := first_unique xFirst yFirst (by rw [xKey, yKey, same])
    rw [← xPart, ← yPart, one]
  · intro separate c
    rw [filter_firsts_of_separate separate c]

end Parts

end Nipoto.Firsts
