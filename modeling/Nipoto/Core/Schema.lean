import Nipoto.Core.Expansion
import Nipoto.General.Checked
import Nipoto.General.Dict

/-! # Checks of a document

What pydantic checks in a document, for the kinds of fields that the models of
app/core/policy.py have. A model is a mapping whose keys are all known
(`extra="forbid"`), and every text of a document that passes is a text of the
model.
-/

namespace Nipoto.Core

open Text

inductive Fault where
  | missing
  | extraForbidden
  | notText
  | notMapping
  | notList
  | notNumber
  | outOfBounds
  /-- "t_low ({low}) must be below t_high ({high})" -/
  | unordered (low high : Number)
  /-- "routes.yaml is missing required routes: {names}" -/
  | missingRoutes (names : List Str)
  /-- "route {name} points at unknown provider {provider}" -/
  | unknownProvider (name provider : Str)
  /-- "link_allowlist takes bare hosts, got {host}" -/
  | notBareHost (host : Str)
  deriving DecidableEq

structure Problem where
  loc : List Str
  fault : Fault
  deriving DecidableEq

abbrev Check (α : Type) := List Str → Yaml → Checked Problem α

/-- A scalar without a dollar sign. -/
def Yaml.Plain : Yaml → Prop
  | .str text => '$' ∉ text
  | .seq _ => False
  | .map _ => False
  | _ => True

/-- What pydantic takes for a number or a flag: such a value and also texts that spell one. -/
structure Reader (α : Type) where
  read : Yaml → Option α
  plain : ∀ value a, read value = some a → value.Plain

variable {α β : Type}

def text : Check Str
  | _, .str s => .ok s
  | loc, _ => .error [⟨loc, .notText⟩]

/-- `str | None`. -/
def optionalText : Check (Option Str)
  | _, .str s => .ok (some s)
  | _, .null => .ok none
  | loc, _ => .error [⟨loc, .notText⟩]

def number (reader : Reader α) (allowed : α → Bool) : Check α := fun loc value =>
  match reader.read value with
  | some a => if allowed a then .ok a else .error [⟨loc, .outOfBounds⟩]
  | none => .error [⟨loc, .notNumber⟩]

def flag (reader : Reader Bool) : Check Bool := number reader fun _ => true

/-- `dict[str, ...]`. -/
def mapping (check : Check α) : Check (List (Str × α))
  | loc, .map entries => Checked.each (fun e => (e.1, ·) <$> check (loc ++ [e.1]) e.2) entries
  | loc, _ => .error [⟨loc, .notMapping⟩]

/-- The fields of a model: their names, and how they are read from the entries of a mapping. -/
structure Fields (α : Type) where
  names : List Str
  read : List Str → List (Str × Yaml) → Checked Problem α

/-- The rule of a validator that runs after the fields have passed. -/
def Check.after (check : Check α) (rule : α → Option Fault) : Check α := fun loc value =>
  match check loc value with
  | .error problems => .error problems
  | .ok a =>
      match rule a with
      | some fault => .error [⟨loc, fault⟩]
      | none => .ok a

namespace Fields

def empty : Fields Unit := ⟨[], fun _ _ => .ok ()⟩

def field (fields : Fields α) (name : Str) (check : Check β) (absent : List Str → Checked Problem β) :
    Fields (α × β) where
  names := fields.names ++ [name]
  read loc entries := (fields.read loc entries).and <|
    match entries.lookup name with
    | some value => check (loc ++ [name]) value
    | none => absent (loc ++ [name])

def required (fields : Fields α) (name : String) (check : Check β) : Fields (α × β) :=
  fields.field name.toList check fun loc => .error [⟨loc, .missing⟩]

def optional (fields : Fields α) (name : String) (default : β) (check : Check β) : Fields (α × β) :=
  fields.field name.toList check fun _ => .ok default

/-- The keys that no field has. -/
def noExtra (fields : Fields α) (loc : List Str) (entries : List (Str × Yaml)) : Checked Problem Unit :=
  match entries.filter fun e => e.1 ∉ fields.names with
  | [] => .ok ()
  | extra => .error (extra.map fun e => ⟨loc ++ [e.1], .extraForbidden⟩)

def model (fields : Fields α) (build : α → β) : Check β
  | loc, .map entries => (fun found => build found.1) <$> (fields.read loc entries).and (fields.noExtra loc entries)
  | loc, _ => .error [⟨loc, .notMapping⟩]

end Fields

mutual
/-- No mapping of a tree has a key twice. -/
def Yaml.Distinct : Yaml → Prop
  | .map entries => (entries.map Prod.fst).Nodup ∧ DistinctEntries entries
  | .seq items => DistinctItems items
  | _ => True

def DistinctItems : List Yaml → Prop
  | [] => True
  | item :: rest => item.Distinct ∧ DistinctItems rest

def DistinctEntries : List (Str × Yaml) → Prop
  | [] => True
  | (_, item) :: rest => item.Distinct ∧ DistinctEntries rest
end

theorem expandEntries_keys (env : Env) (entries : List (Str × Yaml)) :
    (expandEntries env entries).map Prod.fst = entries.map Prod.fst := by
  induction entries with
  | nil => rfl
  | cons e rest ih => rw [expandEntries, List.map_cons, List.map_cons, ih]

theorem distinct_expandText (env : Env) (s : Str) : (expandText env s).Distinct := by
  unfold expandText
  repeat' split
  all_goals trivial

mutual
theorem distinct_expandEnv (env : Env) : ∀ {d : Yaml}, d.Distinct → (expandEnv env d).Distinct
  | .str s, _ => distinct_expandText env s
  | .map entries, distinct => ⟨(expandEntries_keys env entries).symm ▸ distinct.1, distinct_expandEntries env distinct.2⟩
  | .seq _, distinct => distinct_expandItems env distinct
  | .null, _ | .bool _, _ | .int _, _ | .float _, _ | .date _, _ => trivial

theorem distinct_expandItems (env : Env) : ∀ {items : List Yaml}, DistinctItems items → DistinctItems (expandItems env items)
  | [], _ => trivial
  | _ :: _, distinct => ⟨distinct_expandEnv env distinct.1, distinct_expandItems env distinct.2⟩

theorem distinct_expandEntries (env : Env) :
    ∀ {entries : List (Str × Yaml)}, DistinctEntries entries → DistinctEntries (expandEntries env entries)
  | [], _ => trivial
  | (_, _) :: _, distinct => ⟨distinct_expandEnv env distinct.1, distinct_expandEntries env distinct.2⟩
end

theorem distinct_entry {entries : List (Str × Yaml)} (distinct : DistinctEntries entries) :
    ∀ e ∈ entries, e.2.Distinct := by
  induction entries with
  | nil => simp
  | cons e rest ih => exact List.forall_mem_cons.mpr ⟨distinct.1, ih distinct.2⟩

theorem anyEntry_iff {key content : Str → Prop} {entries : List (Str × Yaml)} :
    AnyEntry key content entries ↔ ∃ e ∈ entries, key e.1 ∨ e.2.Any key content := by
  induction entries with
  | nil => simp [AnyEntry]
  | cons e rest ih => simp only [AnyEntry, ih, List.exists_mem_cons_iff, or_assoc]

theorem no_reference {s : Str} (plain : '$' ∉ s) : ¬ HasReference s := by
  rintro ⟨a, x, b, rfl⟩
  exact plain (by simp)

theorem plain_any {value : Yaml} (plain : value.Plain) : ¬ value.Any HasReference HasReference := by
  cases value with
  | str s => exact no_reference plain
  | seq items | map entries => exact absurd plain id
  | null | bool b | int n | float value | date s => exact id

/-- A value that passes has a reference just if one of the texts it becomes has. -/
def Check.Shows (check : Check α) (texts : α → List Str) : Prop :=
  ∀ ⦃loc value a⦄, value.Distinct → check loc value = .ok a →
    (value.Any HasReference HasReference ↔ ∃ s ∈ texts a, HasReference s)

/-- The entry of a name has a reference. -/
def Held (entries : List (Str × Yaml)) (name : Str) : Prop :=
  ∃ value, entries.lookup name = some value ∧ value.Any HasReference HasReference

def Fields.Shows (fields : Fields α) (texts : α → List Str) : Prop :=
  ∀ ⦃loc entries a⦄, DistinctEntries entries → fields.read loc entries = .ok a →
    ((∃ name ∈ fields.names, Held entries name) ↔ ∃ s ∈ texts a, HasReference s)

theorem exists_append {P : β → Prop} {a b : List β} : (∃ s ∈ a ++ b, P s) ↔ (∃ s ∈ a, P s) ∨ ∃ s ∈ b, P s := by
  simp only [List.mem_append, or_and_right, exists_or]

theorem text_shows : text.Shows fun s => [s] := by
  intro loc value a _ passed
  cases value with
  | str s =>
      obtain rfl := Except.ok.inj passed
      simp [Yaml.Any]
  | _ => cases passed

theorem optionalText_shows : optionalText.Shows Option.toList := by
  intro loc value a _ passed
  cases value with
  | str s =>
      obtain rfl := Except.ok.inj passed
      simp [Yaml.Any]
  | null =>
      obtain rfl := Except.ok.inj passed
      simp [Yaml.Any]
  | _ => cases passed

theorem number_shows (reader : Reader α) (allowed : α → Bool) : (number reader allowed).Shows fun _ => [] := by
  intro loc value a _ passed
  unfold number at passed
  cases read : reader.read value with
  | none => simp [read] at passed
  | some b => exact iff_of_false (plain_any (reader.plain value b read)) (by simp)

theorem mapping_shows {check : Check α} {texts : α → List Str} (own : check.Shows texts) :
    (mapping check).Shows fun found => found.flatMap fun e => e.1 :: texts e.2 := by
  intro loc value found distinct passed
  cases value with
  | map entries =>
      have each := Checked.each_ok.mp passed
      have inner := distinct_entry distinct.2
      rw [Yaml.Any, anyEntry_iff]
      clear passed distinct
      induction each with
      | nil => simp
      | @cons e b rest found first _ ih =>
          obtain ⟨a, passed, rfl⟩ := Checked.map_ok.mp first
          have here := own (inner e List.mem_cons_self) passed
          have later := ih fun d member => inner d (List.mem_cons_of_mem e member)
          simp only [List.exists_mem_cons_iff, later, here, List.flatMap_cons, List.cons_append, exists_append, or_assoc]
  | _ => cases passed

theorem after_ok {check : Check α} {rule : α → Option Fault} {loc : List Str} {value : Yaml} {a : α} :
    check.after rule loc value = .ok a ↔ check loc value = .ok a ∧ rule a = none := by
  unfold Check.after
  cases check loc value with
  | error problems => simp
  | ok b =>
      cases rule b with
      | none => aesop
      | some fault => aesop

theorem after_shows {check : Check α} {texts : α → List Str} (own : check.Shows texts) (rule : α → Option Fault) :
    (check.after rule).Shows texts := fun _ _ _ distinct passed => own distinct (after_ok.mp passed).1

namespace Fields

variable {fields : Fields α} {texts : α → List Str} {check : Check β} {more : β → List Str}

theorem empty_shows : empty.Shows fun _ => [] := by
  intro loc entries a _ _
  simp [empty]

theorem field_shows (earlier : fields.Shows texts) (own : check.Shows more) {name : Str}
    {absent : List Str → Checked Problem β} (default : ∀ loc b, absent loc = .ok b → ∀ s ∈ more b, ¬ HasReference s) :
    (fields.field name check absent).Shows fun found => texts found.1 ++ more found.2 := by
  intro loc entries found distinct passed
  obtain ⟨before, last⟩ := Checked.and_ok.mp passed
  have here : Held entries name ↔ ∃ s ∈ more found.2, HasReference s := by
    cases present : entries.lookup name with
    | none =>
        rw [present] at last
        exact iff_of_false (by simp [Held, present]) fun ⟨s, member, has⟩ => default _ _ last s member has
    | some value =>
        rw [present] at last
        have inner : value.Distinct := distinct_entry distinct _ (Dict.mem_of_lookup present)
        simpa [Held, present] using own inner last
  have one : (∃ s ∈ [name], Held entries s) ↔ Held entries name := by simp
  simp only [field, exists_append, earlier distinct before, one, here]

theorem required_shows (earlier : fields.Shows texts) (name : String) (own : check.Shows more) :
    (fields.required name check).Shows fun found => texts found.1 ++ more found.2 :=
  field_shows earlier own fun _ _ absent => nomatch absent

theorem optional_shows (earlier : fields.Shows texts) (name : String) (default : β)
    (own : check.Shows more) (plain : ∀ s ∈ more default, '$' ∉ s) :
    (fields.optional name default check).Shows fun found => texts found.1 ++ more found.2 :=
  field_shows earlier own fun _ _ absent s member => no_reference (plain s (Except.ok.inj absent ▸ member))

theorem noExtra_ok {loc : List Str} {entries : List (Str × Yaml)} :
    fields.noExtra loc entries = .ok () ↔ ∀ e ∈ entries, e.1 ∈ fields.names := by
  have none : (entries.filter fun e => e.1 ∉ fields.names) = [] ↔ ∀ e ∈ entries, e.1 ∈ fields.names := by
    simp [List.filter_eq_nil_iff]
  rw [← none, noExtra]
  split
  next same => exact iff_of_true rfl same
  next extra => exact iff_of_false nofun extra

/-- A mapping without unknown keys has its references in the entries of the known ones. -/
theorem held_iff {names : List Str} {entries : List (Str × Yaml)} (once : (entries.map Prod.fst).Nodup)
    (known : ∀ e ∈ entries, e.1 ∈ names) (plain : ∀ name ∈ names, '$' ∉ name) :
    AnyEntry HasReference HasReference entries ↔ ∃ name ∈ names, Held entries name := by
  rw [anyEntry_iff]
  constructor
  · rintro ⟨e, member, atKey | inside⟩
    · exact absurd atKey (no_reference (plain e.1 (known e member)))
    · exact ⟨e.1, known e member, e.2, (Dict.mem_iff_lookup once).mp member, inside⟩
  · rintro ⟨name, -, value, found, inside⟩
    exact ⟨(name, value), Dict.mem_of_lookup found, .inr inside⟩

theorem model_shows (all : fields.Shows texts) (plain : fields.names.all (fun name => '$' ∉ name) = true) {build : α → β}
    (same : ∀ a, more (build a) = texts a) : (fields.model build).Shows more := by
  intro loc value b distinct passed
  cases value with
  | map entries =>
      obtain ⟨⟨a, _⟩, both, rfl⟩ := Checked.map_ok.mp passed
      obtain ⟨read, known⟩ := Checked.and_ok.mp both
      rw [same, ← all distinct.2 read]
      exact held_iff distinct.1 (noExtra_ok.mp known) (by simpa using plain)
  | _ => cases passed

end Fields

end Nipoto.Core
