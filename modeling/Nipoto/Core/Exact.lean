import Nipoto.Core.Schema

/-! # Values that documents have

A check passes valid values only, and it reads each of them from a document of its
own. Both are shown for a model from its fields, so that the valid values of a file
are known without its documents.
-/

namespace Nipoto.Core

open Text

variable {α β γ : Type}

structure Check.Exact (check : Check α) (valid : α → Prop) (dump : α → Yaml) : Prop where
  sound : ∀ ⦃loc value a⦄, value.Distinct → check loc value = .ok a → valid a
  loads : ∀ ⦃a⦄, valid a → ∀ loc, check loc (dump a) = .ok a
  distinct : ∀ ⦃a⦄, valid a → (dump a).Distinct

/-- The same for the fields of a model, which may stand among others. -/
structure Fields.Exact (fields : Fields α) (valid : α → Prop) (dump : α → List (Str × Yaml)) : Prop where
  names : ∀ a, (dump a).map Prod.fst = fields.names
  sound : ∀ ⦃loc entries a⦄, DistinctEntries entries → fields.read loc entries = .ok a → valid a
  loads : ∀ ⦃a entries⦄, valid a → (∀ e ∈ dump a, entries.lookup e.1 = some e.2) → ∀ loc, fields.read loc entries = .ok a
  distinct : ∀ ⦃a⦄, valid a → DistinctEntries (dump a)

theorem distinct_entries {entries : List (Str × Yaml)} : DistinctEntries entries ↔ ∀ e ∈ entries, e.2.Distinct := by
  induction entries with
  | nil => simp [DistinctEntries]
  | cons e rest ih => rw [List.forall_mem_cons, ← ih, DistinctEntries]

theorem distinct_of_plain {value : Yaml} (plain : value.Plain) : value.Distinct := by
  cases value with
  | seq items | map entries => exact absurd plain id
  | _ => trivial

theorem Check.Exact.iff {check : Check α} {valid other : α → Prop} {dump : α → Yaml} (exact : check.Exact valid dump)
    (same : ∀ a, valid a ↔ other a) : check.Exact other dump where
  sound := fun _ _ a distinct passed => (same a).mp (exact.sound distinct passed)
  loads := fun a formed => exact.loads ((same a).mpr formed)
  distinct := fun a formed => exact.distinct ((same a).mpr formed)

theorem text_exact : text.Exact (fun _ => True) Yaml.str where
  sound := fun _ _ _ _ _ => trivial
  loads := fun _ _ _ => rfl
  distinct := fun _ _ => trivial

def dumpOptional : Option Str → Yaml
  | some s => .str s
  | none => .null

theorem optionalText_exact : optionalText.Exact (fun _ => True) dumpOptional where
  sound := fun _ _ _ _ _ => trivial
  loads := fun a _ _ => by cases a <;> rfl
  distinct := fun a _ => by cases a <;> trivial

theorem number_exact {reader : Reader α} {write : α → Yaml} (literal : ∀ a, reader.read (write a) = some a)
    (allowed : α → Bool) : (number reader allowed).Exact (fun a => allowed a = true) write where
  sound := by
    intro loc value a _ passed
    unfold number at passed
    split at passed
    · split at passed
      · rename_i fine
        exact Except.ok.inj passed ▸ fine
      · cases passed
    · cases passed
  loads := fun a fine loc => by simp only [number, literal, fine, if_true]
  distinct := fun a _ => distinct_of_plain (reader.plain _ a (literal a))

def dumpEntries (dump : α → Yaml) (found : List (Str × α)) : List (Str × Yaml) := found.map fun e => (e.1, dump e.2)

theorem mapping_exact {check : Check α} {valid : α → Prop} {dump : α → Yaml} (own : check.Exact valid dump) :
    (mapping check).Exact (fun found => (found.map Prod.fst).Nodup ∧ ∀ e ∈ found, valid e.2)
      fun found => .map (dumpEntries dump found) where
  sound := by
    intro loc value found distinct passed
    cases value with
    | map entries =>
        have each := Checked.each_ok.mp passed
        have inner := distinct_entries.mp distinct.2
        have keys := distinct.1
        clear passed distinct
        have same : found.map Prod.fst = entries.map Prod.fst := by
          induction each with
          | nil => rfl
          | cons first _ ih =>
              obtain ⟨a, -, rfl⟩ := Checked.map_ok.mp first
              rw [List.map_cons, List.map_cons, ih (fun e member => inner e (List.mem_cons_of_mem _ member)) keys.tail]
        refine ⟨same ▸ keys, ?_⟩
        clear same keys
        induction each with
        | nil => simp
        | cons first _ ih =>
            obtain ⟨a, passed, rfl⟩ := Checked.map_ok.mp first
            refine List.forall_mem_cons.mpr ⟨own.sound (inner _ List.mem_cons_self) passed, ?_⟩
            exact ih fun e member => inner e (List.mem_cons_of_mem _ member)
    | _ => cases passed
  loads := by
    rintro found ⟨-, all⟩ loc
    refine Checked.each_ok.mpr ?_
    induction found with
    | nil => exact .nil
    | cons e rest ih =>
        obtain ⟨here, later⟩ := List.forall_mem_cons.mp all
        exact .cons (Checked.map_ok.mpr ⟨e.2, own.loads here _, rfl⟩) (ih later)
  distinct := by
    rintro found ⟨keys, all⟩
    have names : (dumpEntries dump found).map Prod.fst = found.map Prod.fst := by simp [dumpEntries]
    refine ⟨names ▸ keys, distinct_entries.mpr fun e member => ?_⟩
    obtain ⟨entry, here, rfl⟩ := List.mem_map.mp member
    exact own.distinct (all entry here)

theorem after_exact {check : Check α} {valid : α → Prop} {dump : α → Yaml} (own : check.Exact valid dump)
    (rule : α → Option Fault) : (check.after rule).Exact (fun a => valid a ∧ rule a = none) dump where
  sound := by
    intro loc value a distinct passed
    obtain ⟨before, fine⟩ := after_ok.mp passed
    exact ⟨own.sound distinct before, fine⟩
  loads := fun a both loc => after_ok.mpr ⟨own.loads both.1 loc, both.2⟩
  distinct := fun a both => own.distinct both.1

namespace Fields

variable {fields : Fields α} {valid : α → Prop} {dump : α → List (Str × Yaml)} {check : Check β} {fine : β → Prop}
  {write : β → Yaml}

theorem empty_exact : empty.Exact (fun _ => True) fun _ => [] where
  names := fun _ => rfl
  sound := fun _ _ _ _ _ => trivial
  loads := fun _ _ _ _ _ => rfl
  distinct := fun _ _ => trivial

theorem field_exact (earlier : fields.Exact valid dump) (own : check.Exact fine write) {name : Str}
    {absent : List Str → Checked Problem β} (default : ∀ loc b, absent loc = .ok b → fine b) :
    (fields.field name check absent).Exact (fun found => valid found.1 ∧ fine found.2)
      fun found => dump found.1 ++ [(name, write found.2)] where
  names := fun found => by rw [List.map_append, earlier.names]; rfl
  sound := by
    intro loc entries found distinct passed
    obtain ⟨before, last⟩ := Checked.and_ok.mp passed
    refine ⟨earlier.sound distinct before, ?_⟩
    cases present : entries.lookup name with
    | none =>
        rw [present] at last
        exact default _ _ last
    | some value =>
        rw [present] at last
        exact own.sound (distinct_entry distinct _ (Dict.mem_of_lookup present)) last
  loads := by
    rintro found entries ⟨before, last⟩ there loc
    have here : entries.lookup name = some (write found.2) := there (name, write found.2) (by simp)
    refine Checked.and_ok.mpr ⟨earlier.loads before (fun e member => there e (by simp [member])) loc, ?_⟩
    rw [here]
    exact own.loads last _
  distinct := by
    rintro found ⟨before, last⟩
    refine distinct_entries.mpr fun e member => ?_
    rcases List.mem_append.mp member with early | late
    · exact distinct_entry (earlier.distinct before) e early
    · obtain rfl := List.mem_singleton.mp late
      exact own.distinct last

theorem required_exact (earlier : fields.Exact valid dump) (name : String) (own : check.Exact fine write) :
    (fields.required name check).Exact (fun found => valid found.1 ∧ fine found.2)
      fun found => dump found.1 ++ [(name.toList, write found.2)] :=
  field_exact earlier own fun _ _ absent => nomatch absent

theorem optional_exact (earlier : fields.Exact valid dump) (name : String) (default : β) (own : check.Exact fine write)
    (allowed : fine default) : (fields.optional name default check).Exact (fun found => valid found.1 ∧ fine found.2)
      fun found => dump found.1 ++ [(name.toList, write found.2)] :=
  field_exact earlier own fun _ _ absent => Except.ok.inj absent ▸ allowed

theorem model_exact (all : fields.Exact valid dump) (once : decide fields.names.Nodup = true) {build : α → β}
    (parts : β → α) (whole : ∀ b, build (parts b) = b) (split : ∀ a, parts (build a) = a) :
    (fields.model build).Exact (fun b => valid (parts b)) fun b => .map (dump (parts b)) where
  sound := by
    intro loc value b distinct passed
    cases value with
    | map entries =>
        obtain ⟨⟨a, _⟩, both, rfl⟩ := Checked.map_ok.mp passed
        rw [split]
        exact all.sound distinct.2 (Checked.and_ok.mp both).1
    | _ => cases passed
  loads := by
    intro b formed loc
    have keys : ((dump (parts b)).map Prod.fst).Nodup := all.names (parts b) ▸ of_decide_eq_true once
    refine Checked.map_ok.mpr ⟨(parts b, ()), Checked.and_ok.mpr ⟨?_, ?_⟩, whole b⟩
    · exact all.loads formed (fun _ member => (Dict.mem_iff_lookup keys).mp member) loc
    · exact noExtra_ok.mpr fun e member => all.names (parts b) ▸ List.mem_map_of_mem member
  distinct := fun b formed => ⟨all.names (parts b) ▸ of_decide_eq_true once, all.distinct formed⟩

/-- The fields read what others read, and then change it. -/
structure Changes (changed : Fields γ) (fields : Fields α) (change : α → γ) : Prop where
  names : changed.names = fields.names
  read : ∀ loc entries, changed.read loc entries = change <$> fields.read loc entries

theorem required_changes (fields : Fields α) (name : String) {changed : Check γ} {change : β → γ}
    (same : ∀ loc value, changed loc value = change <$> check loc value) :
    (fields.required name changed).Changes (fields.required name check) (Prod.map id change) where
  names := rfl
  read := by
    intro loc entries
    simp only [required, field, ← Checked.and_map_right]
    cases entries.lookup name.toList with
    | none => rfl
    | some value => simp only [same]

theorem Changes.field {changed : Fields γ} {change : α → γ} (changes : changed.Changes fields change) (name : Str)
    (check : Check β) (absent : List Str → Checked Problem β) :
    (changed.field name check absent).Changes (fields.field name check absent) (Prod.map change id) where
  names := by simp only [Fields.field, changes.names]
  read := fun loc entries => by simp only [Fields.field, changes.read, Checked.and_map_left]

theorem Changes.model {δ ε : Type} {changed : Fields γ} {change : α → γ} (changes : changed.Changes fields change)
    {build : α → δ} {rebuild : γ → ε} {view : δ → ε} (same : ∀ a, rebuild (change a) = view (build a)) (loc : List Str)
    (value : Yaml) : changed.model rebuild loc value = view <$> fields.model build loc value := by
  cases value with
  | map entries =>
      have extra : changed.noExtra loc entries = fields.noExtra loc entries := by
        simp only [noExtra, changes.names]
      simp only [Fields.model, changes.read, extra, Checked.and_map_left]
      cases (fields.read loc entries).and (fields.noExtra loc entries) with
      | error problems => rfl
      | ok found => exact congrArg Except.ok (same found.1)
  | _ => rfl

end Fields

end Nipoto.Core
