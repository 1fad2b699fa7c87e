import Mathlib.Data.List.Nodup
import Nipoto.General.Firsts

/-! # Dictionaries

Association lists with the order in which their keys were put in. A key that is
put again keeps its place.
-/

namespace Nipoto.Dict

section

variable {κ α : Type} [BEq κ] [LawfulBEq κ] {dict : List (κ × α)}

theorem lookup_eq_none_iff {j : κ} : dict.lookup j = none ↔ j ∉ dict.map Prod.fst := by
  induction dict with
  | nil => simp
  | cons e rest ih =>
      by_cases same : j = e.1
      · simp [same]
      · rw [List.lookup_cons, beq_false_of_ne same]
        simp [ih, same]

theorem mem_of_lookup {key : κ} {value : α} (found : dict.lookup key = some value) : (key, value) ∈ dict := by
  obtain ⟨before, after, split, -⟩ := List.lookup_eq_some_iff.mp found
  rw [split]
  exact List.mem_append_right before List.mem_cons_self

theorem mem_iff_lookup (distinct : (dict.map Prod.fst).Nodup) {e : κ × α} :
    e ∈ dict ↔ dict.lookup e.1 = some e.2 := by
  induction dict with
  | nil => simp
  | cons d rest ih =>
      obtain ⟨fresh, distinct⟩ := List.nodup_cons.mp distinct
      rw [List.mem_cons, ih distinct, List.lookup_cons]
      by_cases same : e.1 = d.1
      · have absent : rest.lookup e.1 = none := lookup_eq_none_iff.mpr (same ▸ fresh)
        rw [absent, same, beq_self_eq_true, Prod.ext_iff]
        simp [same, eq_comm]
      · have other : e ≠ d := fun equal => same (congrArg Prod.fst equal)
        simp [other, beq_false_of_ne same]

end

variable {κ α : Type} [DecidableEq κ]

def put (key : κ) (value : α) : List (κ × α) → List (κ × α)
  | [] => [(key, value)]
  | e :: rest => if e.1 = key then (key, value) :: rest else e :: put key value rest

/-- `dict.update`. -/
def update (dict more : List (κ × α)) : List (κ × α) := more.foldl (fun dict e => put e.1 e.2 dict) dict

/-- `dict.setdefault`. -/
def setDefault (key : κ) (value : α) (dict : List (κ × α)) : List (κ × α) :=
  if (dict.lookup key).isSome then dict else put key value dict

variable {dict more : List (κ × α)} {key : κ} {value : α}

theorem lookup_put (j : κ) : (put key value dict).lookup j = if j = key then some value else dict.lookup j := by
  induction dict with
  | nil =>
      rw [put, List.lookup_cons]
      by_cases same : j = key
      · simp [same]
      · simp [same, beq_false_of_ne same]
  | cons e rest ih =>
      rw [put]
      by_cases here : e.1 = key
      · subst here
        by_cases same : j = e.1
        · simp [same]
        · rw [if_pos rfl, if_neg same, List.lookup_cons, List.lookup_cons, beq_false_of_ne same]
      · rw [if_neg here, List.lookup_cons, List.lookup_cons, ih]
        by_cases same : j = e.1
        · subst same
          simp [here]
        · simp [beq_false_of_ne same]

/-- The later dictionary is looked up first. -/
theorem lookup_update (distinct : (more.map Prod.fst).Nodup) (j : κ) :
    (update dict more).lookup j = (more.lookup j).or (dict.lookup j) := by
  induction more generalizing dict with
  | nil => rfl
  | cons e rest ih =>
      obtain ⟨fresh, distinct⟩ := List.nodup_cons.mp distinct
      rw [update, List.foldl_cons, ← update, ih distinct, lookup_put, List.lookup_cons]
      by_cases same : j = e.1
      · subst same
        have absent : rest.lookup e.1 = none := lookup_eq_none_iff.mpr fresh
        simp [absent]
      · simp [same, beq_false_of_ne same]

/-- The last entry for a key counts. -/
theorem lookup_update_last (j : κ) : (update dict more).lookup j = (more.reverse.lookup j).or (dict.lookup j) := by
  induction more generalizing dict with
  | nil => rfl
  | cons e rest ih =>
      have last : (rest.reverse ++ [e]).lookup j = (rest.reverse.lookup j).or (if j = e.1 then some e.2 else none) := by
        rw [List.lookup_append, List.lookup_cons]
        by_cases same : j = e.1
        · simp [same]
        · simp [same, beq_false_of_ne same]
      rw [update, List.foldl_cons, ← update, ih, lookup_put, List.reverse_cons, last, Option.or_assoc]
      by_cases same : j = e.1
      · simp [same]
      · simp [same]

theorem lookup_setDefault (j : κ) :
    (setDefault key value dict).lookup j = (dict.lookup j).or (if j = key then some value else none) := by
  unfold setDefault
  split
  · rename_i known
    by_cases same : j = key
    · subst same
      obtain ⟨found, here⟩ := Option.isSome_iff_exists.mp known
      simp [here]
    · simp [same]
  · rename_i unknown
    rw [lookup_put]
    by_cases same : j = key
    · subst same
      simp [Option.not_isSome_iff_eq_none.mp unknown]
    · simp [same]

theorem put_keys : (put key value dict).map Prod.fst =
    if key ∈ dict.map Prod.fst then dict.map Prod.fst else dict.map Prod.fst ++ [key] := by
  induction dict with
  | nil => rfl
  | cons e rest ih =>
      rw [put]
      by_cases here : e.1 = key
      · simp [here]
      · have other : key ≠ e.1 := Ne.symm here
        rw [if_neg here, List.map_cons, ih]
        by_cases later : key ∈ rest.map Prod.fst
        · simp only [List.map_cons, List.mem_cons, later, or_true, if_true]
        · simp only [List.map_cons, List.mem_cons, later, other, or_false, if_false, List.cons_append]

theorem put_distinct (distinct : (dict.map Prod.fst).Nodup) : ((put key value dict).map Prod.fst).Nodup := by
  rw [put_keys]
  split
  · exact distinct
  · rename_i fresh
    exact List.nodup_append.mpr ⟨distinct, List.nodup_singleton key, fun a old b new same => fresh (by
      rw [← List.mem_singleton.mp new, ← same]
      exact old)⟩

theorem mem_put {e : κ × α} (member : e ∈ put key value dict) : e = (key, value) ∨ e ∈ dict := by
  induction dict with
  | nil => exact .inl (List.mem_singleton.mp member)
  | cons d rest ih =>
      rw [put] at member
      split at member
      · exact (List.mem_cons.mp member).imp_right (List.mem_cons_of_mem d)
      · cases List.mem_cons.mp member with
        | inl first => exact .inr (first ▸ List.mem_cons_self)
        | inr later => exact (ih later).imp_right (List.mem_cons_of_mem d)

theorem mem_update {e : κ × α} (member : e ∈ update dict more) : e ∈ more ∨ e ∈ dict := by
  induction more generalizing dict with
  | nil => exact .inr member
  | cons d rest ih =>
      rw [update, List.foldl_cons, ← update] at member
      cases ih member with
      | inl later => exact .inl (List.mem_cons_of_mem d later)
      | inr earlier =>
          cases mem_put earlier with
          | inl here => exact .inl (here ▸ List.mem_cons_self)
          | inr old => exact .inr old

/-- Keys stand in the order in which they came first. -/
theorem update_keys : (update [] more).map Prod.fst = Firsts.firsts id (more.map Prod.fst) := by
  induction more using List.reverseRecOn with
  | nil => rfl
  | append_singleton before e ih =>
      have keys : ∀ key, key ∈ Firsts.firsts id (before.map Prod.fst) ↔ ∃ b ∈ before.map Prod.fst, id b = key := by
        intro key
        refine ⟨fun first => ⟨key, Firsts.mem_of_mem_firsts first, rfl⟩, ?_⟩
        rintro ⟨b, member, rfl⟩
        obtain ⟨first, isFirst, same⟩ := @Firsts.exists_first _ _ _ id _ _ member
        exact same ▸ isFirst
      have last : update [] (before ++ [e]) = put e.1 e.2 (update [] before) := by
        simp only [update, List.foldl_append, List.foldl_cons, List.foldl_nil]
      rw [last, put_keys, ih, List.map_append, List.map_singleton]
      by_cases known : e.1 ∈ Firsts.firsts id (before.map Prod.fst)
      · rw [if_pos known, Firsts.firsts_concat_known ((keys e.1).mp known)]
      · have fresh : ∀ b ∈ before.map Prod.fst, id b ≠ id e.1 :=
          fun b member same => known ((keys e.1).mpr ⟨b, member, same⟩)
        rw [if_neg known, Firsts.firsts_concat_fresh fresh]

/-- `Counter`. -/
def tally (keys : List κ) : List (κ × Nat) :=
  keys.foldl (fun counts key => put key ((counts.lookup key).getD 0 + 1) counts) []

theorem lookup_counts (keys : List κ) (counts : List (κ × Nat)) (j : κ) :
    (keys.foldl (fun counts key => put key ((counts.lookup key).getD 0 + 1) counts) counts).lookup j =
      if j ∈ keys then some ((counts.lookup j).getD 0 + keys.count j) else counts.lookup j := by
  induction keys generalizing counts with
  | nil => rfl
  | cons key rest ih =>
      rw [List.foldl_cons, ih, lookup_put]
      by_cases same : j = key
      · subst same
        by_cases later : j ∈ rest
        · simp [later]
          omega
        · simp [later, List.count_eq_zero_of_not_mem later]
      · simp [same, Ne.symm same]

theorem lookup_tally (keys : List κ) (j : κ) :
    (tally keys).lookup j = if j ∈ keys then some (keys.count j) else none := by
  rw [tally, lookup_counts]
  simp

theorem tally_distinct (keys : List κ) : ((tally keys).map Prod.fst).Nodup := by
  have kept : ∀ counts : List (κ × Nat), (counts.map Prod.fst).Nodup →
      ((keys.foldl (fun counts key => put key ((counts.lookup key).getD 0 + 1) counts) counts).map Prod.fst).Nodup := by
    induction keys with
    | nil => exact fun _ distinct => distinct
    | cons key rest ih => exact fun counts distinct => ih _ (put_distinct distinct)
  exact kept [] List.nodup_nil

end Nipoto.Dict
