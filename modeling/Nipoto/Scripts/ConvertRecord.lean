import Nipoto.Scripts.ConvertKb
import Nipoto.Text.Str

/-! # What the conversion of a record leaves for the check

`convert_record` of scripts/convert_kb.py fills in defaults before `validate` looks
for empty values. A record without an id still gets the id prefix for its id.
-/

namespace Nipoto.ConvertKb

open Text

/-- `value in (None, "")`. -/
def isNothing : Json → Bool
  | .null => true
  | .str s => s == ""
  | _ => false

def pick (record : Item) : List String → Json
  | [] => .null
  | key :: keys => if isNothing (get record key) then pick record keys else get record key

/-- `value or default`. -/
def orElse (value default : Json) : Json := if value.truthy then value else default

/-- The keys of an import item. -/
def IsImport (record : Item) : Prop := ∀ name ∈ ["title", "body", "type"], name ∈ record.map Prod.fst

instance (record : Item) : Decidable (IsImport record) := inferInstanceAs (Decidable (∀ name ∈ _, _))

def idPrefix : String := "faq_"

def withPrefix (raw : String) : String := if idPrefix.toList <+: raw.toList then raw else idPrefix ++ raw

/-- `datetime.now(UTC).isoformat()`. -/
structure Timestamp where
  text : String
  filled : text ≠ ""

variable (str : Json → String)

/-- `str(value)`, which leaves a text as it is. -/
def written : Json → String
  | .str s => s
  | value => str value

def chosen (record : Item) (keys : List String) : String := written str (orElse (pick record keys) (.str ""))

def rawId (record : Item) : String := chosen str record ["id", "_id"]

def faqUrl (department : Json) (id : String) : String :=
  "https://nipoto.com/faq/" ++ written str department ++ "/" ++ id

def stripped (text : String) : String := .ofList (strip text.toList)

/-- The import item of a record that is not one yet. -/
def converted (now : Timestamp) (record : Item) : Item :=
  let itemId := withPrefix (rawId str record)
  let department := orElse (pick record ["department", "departmentId"]) (.str "")
  let updated := orElse (pick record ["updatedAt", "updated_at", "createdAt"]) (.str now.text)
  [("id", .str itemId),
    ("type", .str "faq"),
    ("visibility", orElse (get record "visibility") (.str "public")),
    ("title", .str (stripped (chosen str record ["question", "title"]))),
    ("body", .str (stripped (chosen str record ["answer", "body"]))),
    ("url", .str (if department.truthy then faqUrl str department itemId else "")),
    ("updated_at", updated),
    ("_topic", department)]

def convertRecord (now : Timestamp) (record : Item) : Item :=
  if IsImport record then record else converted str now record

/-- `[convert_record(r) for r in records]`; each record reads the clock. -/
def convertAll (now : Nat → Timestamp) (records : List Item) : List Item :=
  records.mapIdx fun i record => convertRecord str (now i) record

def HasId (record : Item) : Prop := ∃ name ∈ ["id", "_id"], (get record name).truthy = true

instance (record : Item) : Decidable (HasId record) := inferInstanceAs (Decidable (∃ name ∈ _, _))

/-- A text other than white space under one of the names. -/
def HasText (record : Item) (names : List String) : Prop :=
  ∃ name ∈ names, (get record name).truthy = true ∧ ¬ Blank (written str (get record name)).toList

structure Sourced (record : Item) : Prop where
  id : HasId record
  question : HasText str record ["question", "title"]
  answer : HasText str record ["answer", "body"]

/-- What a silent check of the converted records promises of the records. -/
structure NothingHidden (now : Nat → Timestamp) (records : List Item) : Prop where
  sourced : validate str (convertAll str now records) = .ok [] → ∀ record ∈ records, Sourced str record
  distinct : validate str (convertAll str now records) = .ok [] →
    ((convertAll str now records).map fun item => get item "id").Nodup
  reported : ∀ record ∈ records, ¬ HasId record → validate str (convertAll str now records) ≠ .ok []

/-- A record whose import item lacks nothing, whatever its id. -/
structure Presentable (record : Item) : Prop where
  question : ¬ Blank (chosen str record ["question", "title"]).toList
  answer : ¬ Blank (chosen str record ["answer", "body"]).toList
  visibility : (get record "visibility").truthy = true → ∃ name ∈ visibilities, get record "visibility" = .str name

/-- Two ids that are the same with the prefix in front. -/
def SameId (a b : String) : Prop :=
  a = b ∨ (a = idPrefix ++ b ∧ ¬ idPrefix.toList <+: b.toList) ∨ (b = idPrefix ++ a ∧ ¬ idPrefix.toList <+: a.toList)

theorem orElse_truthy {default : Json} (filled : default.truthy = true) (value : Json) :
    (orElse value default).truthy = true := by
  unfold orElse
  split
  next there => exact there
  next => exact filled

theorem pick_mem {record : Item} {keys : List String} (there : (pick record keys).truthy = true) :
    ∃ name ∈ keys, pick record keys = get record name := by
  induction keys with
  | nil => simp [pick, Json.truthy] at there
  | cons key keys ih =>
      rw [pick] at there ⊢
      split
      next nothing =>
        rw [if_pos nothing] at there
        obtain ⟨name, member, same⟩ := ih there
        exact ⟨name, List.mem_cons_of_mem key member, same⟩
      next => exact ⟨key, List.mem_cons_self, rfl⟩

theorem hasText_of_chosen {record : Item} {keys : List String} (solid : ¬ Blank (chosen str record keys).toList) :
    HasText str record keys := by
  unfold chosen orElse at solid
  split at solid
  next there =>
    obtain ⟨name, member, same⟩ := pick_mem there
    rw [same] at there solid
    exact ⟨name, member, there, solid⟩
  next => exact absurd (by simp [written, Blank]) solid

theorem begins_prefixed (raw : String) : idPrefix.toList <+: (idPrefix ++ raw).toList := by
  rw [String.toList_append]
  exact List.prefix_append _ _

theorem withPrefix_begins (raw : String) : idPrefix.toList <+: (withPrefix raw).toList := by
  unfold withPrefix
  split
  next begins => exact begins
  next => exact begins_prefixed raw

theorem withPrefix_ne_empty (raw : String) : withPrefix raw ≠ "" := by
  intro empty
  have begins := withPrefix_begins raw
  rw [empty] at begins
  exact absurd (List.prefix_nil.mp begins) (by decide)

theorem withPrefix_eq_iff {a b : String} : withPrefix a = withPrefix b ↔ SameId a b := by
  unfold withPrefix SameId
  by_cases left : idPrefix.toList <+: a.toList <;> by_cases right : idPrefix.toList <+: b.toList
  · simp [left, right]
  · have other : a ≠ b := by
      rintro rfl
      exact right left
    simp [left, right, other]
  · have other : a ≠ b := by
      rintro rfl
      exact left right
    simp [left, right, other, eq_comm]
  · have apart : a ≠ idPrefix ++ b ∧ b ≠ idPrefix ++ a := by
      constructor
      · rintro rfl
        exact left (begins_prefixed b)
      · rintro rfl
        exact right (begins_prefixed a)
    simp [left, right, apart]

theorem apart_text {s t : String} : Apart (.str s) (.str t) ↔ s ≠ t := by
  simp [Apart, key, eq_comm]

section Converted

variable (now : Timestamp) (record : Item)

theorem converted_id : get (converted str now record) "id" = .str (withPrefix (rawId str record)) := rfl

theorem converted_visibility :
    get (converted str now record) "visibility" = orElse (get record "visibility") (.str "public") := rfl

theorem visibility_iff :
    (∃ name ∈ visibilities, orElse (get record "visibility") (.str "public") = .str name) ↔
      ((get record "visibility").truthy = true → ∃ name ∈ visibilities, get record "visibility" = .str name) := by
  unfold orElse
  split
  next there => simp [there]
  next missing => simp [missing, visibilities]

theorem stripped_truthy {text : String} : (Json.str (stripped text)).truthy = true ↔ ¬ Blank text.toList := by
  rw [← strip_eq_nil]
  simp [Json.truthy, stripped, ← String.toList_inj]

theorem converted_complete : Complete (converted str now record) ↔ Presentable str record := by
  have id : (get (converted str now record) "id").truthy = true := by
    simp [converted_id, Json.truthy, withPrefix_ne_empty]
  have updated : (get (converted str now record) "updated_at").truthy = true :=
    orElse_truthy (by simp [Json.truthy, now.filled]) _
  have visibility : (get (converted str now record) "visibility").truthy = true := orElse_truthy (by decide) _
  have title : (get (converted str now record) "title").truthy = true ↔
      ¬ Blank (chosen str record ["question", "title"]).toList := stripped_truthy
  have body : (get (converted str now record) "body").truthy = true ↔
      ¬ Blank (chosen str record ["answer", "body"]).toList := stripped_truthy
  constructor
  · rintro ⟨required, -, shown⟩
    exact ⟨title.mp (required _ (by decide)), body.mp (required _ (by decide)), (visibility_iff record).mp shown⟩
  · rintro ⟨question, answer, shown⟩
    refine ⟨?_, ⟨"faq", by decide, rfl⟩, (visibility_iff record).mpr shown⟩
    simp only [required, List.forall_mem_cons]
    exact ⟨id, rfl, visibility, title.mpr question, body.mpr answer, updated, by simp⟩

theorem converted_scalars {str : Json → String} {now : Timestamp} {record : Item} (there : Presentable str record) :
    Scalars (converted str now record) := by
  obtain ⟨name, -, shown⟩ := (visibility_iff record).mpr there.visibility
  exact ⟨trivial, by rw [converted_visibility, shown]; trivial, fun _ => trivial⟩

end Converted

section Records

variable {now : Nat → Timestamp} {records : List Item} (fresh : ∀ record ∈ records, ¬ IsImport record)

include fresh

theorem convertAll_fresh : convertAll str now records = records.mapIdx fun i record => converted str (now i) record := by
  apply List.ext_getElem (by simp [convertAll])
  intro i _ inside
  rw [List.length_mapIdx] at inside
  simp [convertAll, convertRecord, fresh _ (List.getElem_mem inside)]

theorem convertAll_ids :
    (convertAll str now records).map (fun item => get item "id") =
      records.map fun record => .str (withPrefix (rawId str record)) := by
  rw [convertAll_fresh str fresh]
  apply List.ext_getElem (by simp)
  simp [converted_id]

theorem mem_convertAll {item : Item} (member : item ∈ convertAll str now records) :
    ∃ record ∈ records, ∃ time, item = converted str time record := by
  rw [convertAll_fresh str fresh] at member
  obtain ⟨i, inside, rfl⟩ := List.mem_mapIdx.mp member
  exact ⟨_, List.getElem_mem inside, now i, rfl⟩

theorem converted_mem {record : Item} (member : record ∈ records) :
    ∃ time, converted str time record ∈ convertAll str now records := by
  obtain ⟨i, inside, rfl⟩ := List.mem_iff_getElem.mp member
  rw [convertAll_fresh str fresh]
  exact ⟨now i, List.mem_mapIdx.mpr ⟨i, inside, rfl⟩⟩

theorem complete_iff :
    (∀ item ∈ convertAll str now records, Complete item) ↔ ∀ record ∈ records, Presentable str record := by
  constructor
  · intro complete record member
    obtain ⟨time, inside⟩ := @converted_mem str now records fresh record member
    exact (converted_complete str time record).mp (complete _ inside)
  · intro presentable item member
    obtain ⟨record, inside, time, rfl⟩ := mem_convertAll str fresh member
    exact (converted_complete str time record).mpr (presentable record inside)

theorem distinct_iff :
    ((convertAll str now records).Pairwise fun a b => Apart (get a "id") (get b "id")) ↔
      records.Pairwise fun a b => ¬ SameId (rawId str a) (rawId str b) := by
  rw [← List.pairwise_map (f := fun item => get item "id"), convertAll_ids str fresh, List.pairwise_map]
  simp only [apart_text, ne_eq, withPrefix_eq_iff]

/-- What the check of converted records finds, said of the records. -/
theorem validate_convertAll_iff :
    validate str (convertAll str now records) = .ok [] ↔
      (∀ record ∈ records, Presentable str record) ∧
        records.Pairwise fun a b => ¬ SameId (rawId str a) (rawId str b) := by
  rw [validate_silent_iff]
  constructor
  · rintro ⟨-, valid⟩
    exact ⟨(complete_iff str fresh).mp valid.complete, (distinct_iff str fresh).mp valid.distinct⟩
  · rintro ⟨presentable, apart⟩
    refine ⟨?_, (complete_iff str fresh).mpr presentable, (distinct_iff str fresh).mpr apart⟩
    intro item member
    obtain ⟨record, inside, time, rfl⟩ := mem_convertAll str fresh member
    exact converted_scalars (presentable record inside)

end Records

end Nipoto.ConvertKb
