import Nipoto.General.Fallible
import Nipoto.General.Json

/-! # The check of a knowledge base file

`validate` of scripts/convert_kb.py on items as `json.loads` returns them. A set
asks for the hash of a value before it looks for it, so that a list or an object
in the wrong place ends the check with a `TypeError`. `str` is the language's;
`json.loads` takes no integer too long for it to write, and nothing else about it
is used.
-/

namespace Nipoto.ConvertKb

abbrev Item := List (String × Json)

/-- "unhashable type: 'list'" and "unhashable type: 'dict'". -/
inductive TypeError where
  | list
  | dict
  deriving DecidableEq

/-- What a set tells values apart by: `1`, `1.0` and `True` are one value to it. -/
inductive Key where
  | none
  | number (value : Number)
  | text (s : String)
  deriving DecidableEq

def key : Json → Except TypeError Key
  | .null => .ok .none
  | .bool b => .ok (.number (.finite (if b then 1 else 0)))
  | .int n => .ok (.number (.finite n))
  | .float value => .ok (.number value)
  | .str s => .ok (.text s)
  | .arr _ => .error .list
  | .obj _ => .error .dict

/-- `item.get(name)`. -/
def get (item : Item) (name : String) : Json := (item.lookup name).getD .null

def required : List String := ["id", "type", "visibility", "title", "body", "updated_at"]

def types : List String := ["faq", "doc"]

def visibilities : List String := ["public", "internal"]

/-- `value in options`. -/
def isIn (options : List String) (value : Json) : Except TypeError Bool := do
  return decide ((← key value) ∈ options.map .text)

/-- The id of an item, or its place in the file. -/
def ref (i : Nat) (item : Item) : Json :=
  if (get item "id").truthy then get item "id" else .str ("#" ++ toString i)

variable (str : Json → String)

/-- One pass of the loop: the messages, and what has been seen with it. -/
def validateItem (seen : List Key) (i : Nat) (item : Item) : Except TypeError (List String × List Key) := do
  let ref := ref i item
  let missing := (required.filter fun name => !(get item name).truthy).map fun name => str ref ++ ": missing " ++ name
  let type := if ← isIn types (get item "type") then [] else [str ref ++ ": type must be one of ['doc', 'faq']"]
  let visibility :=
    if ← isIn visibilities (get item "visibility") then []
    else [str ref ++ ": visibility must be one of ['internal', 'public']"]
  let key ← key ref
  let duplicate := if key ∈ seen then [str ref ++ ": duplicate id"] else []
  return (missing ++ type ++ visibility ++ duplicate, key :: seen)

def validateFrom (seen : List Key) (i : Nat) : List Item → Except TypeError (List String)
  | [] => return []
  | item :: rest => do
      let (errors, seen) ← validateItem str seen i item
      return errors ++ (← validateFrom seen (i + 1) rest)

def validate (items : List Item) : Except TypeError (List String) := validateFrom str [] 0 items

/-- Every required value is there, and the two enumerations have one of their values. -/
structure Complete (item : Item) : Prop where
  required : ∀ name ∈ required, (get item name).truthy = true
  type : ∃ name ∈ types, get item "type" = .str name
  visibility : ∃ name ∈ visibilities, get item "visibility" = .str name

/-- No set takes the two values for one. -/
def Apart (a b : Json) : Prop := ∀ k, key a = .ok k → key b ≠ .ok k

structure Valid (items : List Item) : Prop where
  complete : ∀ item ∈ items, Complete item
  distinct : items.Pairwise fun a b => Apart (get a "id") (get b "id")

/-- The check ends, and it is silent just if the items are valid. -/
def Exact (items : List Item) : Prop := ∃ errors, validate str items = .ok errors ∧ (errors = [] ↔ Valid items)

/-- Neither a list nor an object. -/
def Scalar : Json → Prop
  | .arr _ => False
  | .obj _ => False
  | _ => True

structure Scalars (item : Item) : Prop where
  type : Scalar (get item "type")
  visibility : Scalar (get item "visibility")
  id : (get item "id").truthy = true → Scalar (get item "id")

theorem key_ok {value : Json} : (∃ k, key value = .ok k) ↔ Scalar value := by
  cases value <;> simp [key, Scalar]

theorem key_text {value : Json} {s : String} : key value = .ok (.text s) ↔ value = .str s := by
  cases value <;> simp [key]

theorem isIn_ok (options : List String) {value : Json} (scalar : Scalar value) :
    ∃ found, isIn options value = .ok found ∧ (found = true ↔ ∃ name ∈ options, value = .str name) := by
  obtain ⟨k, hashed⟩ := key_ok.mpr scalar
  refine ⟨decide (k ∈ options.map .text), by simp [isIn, hashed, bind, Except.bind, pure, Except.pure], ?_⟩
  rw [decide_eq_true_eq, List.mem_map]
  exact exists_congr fun name => and_congr_right fun _ => by rw [← key_text, hashed, Except.ok.injEq, eq_comm]

theorem scalar_of_isIn {options : List String} {value : Json} {found : Bool} (ok : isIn options value = .ok found) :
    Scalar value := by
  cases value <;> trivial

theorem ref_scalar {i : Nat} {item : Item} : Scalar (ref i item) ↔ ((get item "id").truthy = true → Scalar (get item "id")) := by
  unfold ref
  split
  next there => exact ⟨fun scalar _ => scalar, fun scalar => scalar there⟩
  next missing => exact iff_of_true trivial fun there => absurd there missing

theorem validateItem_ok (seen : List Key) (i : Nat) {item : Item} (scalars : Scalars item) :
    ∃ errors k, validateItem str seen i item = .ok (errors, k :: seen) ∧ key (ref i item) = .ok k ∧
      (errors = [] ↔ Complete item ∧ k ∉ seen) := by
  obtain ⟨known, type, isType⟩ := isIn_ok types scalars.type
  obtain ⟨shown, visibility, isVisibility⟩ := isIn_ok visibilities scalars.visibility
  obtain ⟨k, hashed⟩ := key_ok.mpr (ref_scalar.mpr scalars.id)
  have run := validateItem.eq_1 str seen i item
  simp only [type, visibility, bind, Except.bind, pure, Except.pure] at run
  rw [hashed] at run
  refine ⟨_, k, run, hashed, ?_⟩
  have complete : Complete item ↔ (∀ name ∈ required, (get item name).truthy = true) ∧ known = true ∧ shown = true := by
    rw [isType, isVisibility]
    exact ⟨fun c => ⟨c.required, c.type, c.visibility⟩, fun ⟨r, t, v⟩ => ⟨r, t, v⟩⟩
  rw [complete]
  simp [List.filter_eq_nil_iff, and_assoc]

theorem scalars_of_ok {seen : List Key} {i : Nat} {item : Item} {found : List String × List Key}
    (ok : validateItem str seen i item = .ok found) : Scalars item := by
  have succeeds : Fallible.Succeeds (validateItem str seen i item) := ⟨found, ok⟩
  simp only [validateItem, Fallible.succeeds_bind] at succeeds
  obtain ⟨known, type, shown, visibility, k, hashed, -⟩ := succeeds
  exact ⟨scalar_of_isIn type, scalar_of_isIn visibility, ref_scalar.mp (key_ok.mp ⟨k, hashed⟩)⟩

theorem Complete.ref_id {item : Item} (complete : Complete item) (i : Nat) : ref i item = get item "id" :=
  if_pos (complete.required "id" (by decide))

theorem valid_cons {item : Item} {rest : List Item} :
    Valid (item :: rest) ↔ Complete item ∧ Valid rest ∧ ∀ later ∈ rest, Apart (get item "id") (get later "id") := by
  constructor
  · intro valid
    obtain ⟨complete, others⟩ := List.forall_mem_cons.mp valid.complete
    obtain ⟨apart, distinct⟩ := List.pairwise_cons.mp valid.distinct
    exact ⟨complete, ⟨others, distinct⟩, apart⟩
  · rintro ⟨complete, valid, apart⟩
    exact ⟨List.forall_mem_cons.mpr ⟨complete, valid.complete⟩, List.pairwise_cons.mpr ⟨apart, valid.distinct⟩⟩

/-- While items are complete, `seen` has their ids and nothing else. -/
theorem validateFrom_ok {items : List Item} (scalars : ∀ item ∈ items, Scalars item) (seen : List Key) (i : Nat) :
    ∃ errors, validateFrom str seen i items = .ok errors ∧
      (errors = [] ↔ Valid items ∧ ∀ item ∈ items, ∀ k ∈ seen, key (get item "id") ≠ .ok k) := by
  induction items generalizing seen i with
  | nil => exact ⟨[], rfl, by simp [show Valid [] from ⟨by simp, .nil⟩]⟩
  | cons item rest ih =>
      obtain ⟨here, others⟩ := List.forall_mem_cons.mp scalars
      obtain ⟨errors, k, first, hashed, silent⟩ := validateItem_ok str seen i here
      obtain ⟨more, run, quiet⟩ := ih others (k :: seen) (i + 1)
      refine ⟨errors ++ more, by simp [validateFrom, first, run, bind, Except.bind, pure, Except.pure], ?_⟩
      rw [List.append_eq_nil_iff, silent, quiet, valid_cons]
      constructor
      · rintro ⟨⟨complete, unseen⟩, valid, fresh⟩
        rw [complete.ref_id] at hashed
        have apart : ∀ later ∈ rest, Apart (get item "id") (get later "id") := by
          intro later member k' same
          obtain rfl := Except.ok.inj (hashed.symm.trans same)
          exact fresh later member _ List.mem_cons_self
        refine ⟨⟨complete, valid, apart⟩, List.forall_mem_cons.mpr ⟨fun k' member same => ?_, ?_⟩⟩
        · obtain rfl := Except.ok.inj (hashed.symm.trans same)
          exact unseen member
        · exact fun later member k' old => fresh later member k' (List.mem_cons_of_mem k old)
      · rintro ⟨⟨complete, valid, apart⟩, fresh⟩
        rw [complete.ref_id] at hashed
        obtain ⟨unseen, later⟩ := List.forall_mem_cons.mp fresh
        refine ⟨⟨complete, fun old => unseen k old hashed⟩, valid, fun other member => List.forall_mem_cons.mpr ⟨?_, ?_⟩⟩
        · exact apart other member k hashed
        · exact later other member

theorem validateFrom_scalars {items : List Item} {seen : List Key} {i : Nat} {errors : List String}
    (ok : validateFrom str seen i items = .ok errors) : ∀ item ∈ items, Scalars item := by
  induction items generalizing seen i errors with
  | nil => simp
  | cons item rest ih =>
      have succeeds : Fallible.Succeeds (validateFrom str seen i (item :: rest)) := ⟨errors, ok⟩
      simp only [validateFrom, Fallible.succeeds_bind] at succeeds
      obtain ⟨found, first, more, run, -⟩ := succeeds
      exact List.forall_mem_cons.mpr ⟨scalars_of_ok str first, ih run⟩

theorem validate_silent_iff {items : List Item} :
    validate str items = .ok [] ↔ (∀ item ∈ items, Scalars item) ∧ Valid items := by
  constructor
  · intro ok
    have scalars := validateFrom_scalars str ok
    obtain ⟨errors, run, silent⟩ := validateFrom_ok str scalars [] 0
    exact ⟨scalars, (silent.mp (Except.ok.inj (run.symm.trans ok))).1⟩
  · rintro ⟨scalars, valid⟩
    obtain ⟨errors, run, silent⟩ := validateFrom_ok str scalars [] 0
    have none := silent.mpr ⟨valid, fun _ _ _ old => absurd old List.not_mem_nil⟩
    exact none ▸ run

/-- The check ends with the right answer just if no list or object stands where a set looks for it. -/
theorem exact_iff (items : List Item) : Exact str items ↔ ∀ item ∈ items, Scalars item := by
  constructor
  · rintro ⟨errors, ok, -⟩
    exact validateFrom_scalars str ok
  · intro scalars
    obtain ⟨errors, ok, silent⟩ := validateFrom_ok str scalars [] 0
    exact ⟨errors, ok, silent.trans (and_iff_left fun _ _ _ old => absurd old List.not_mem_nil)⟩

/-- A type that is a list ends the check of the whole file. -/
theorem list_type_raises : ¬ ∀ (str : Json → String) (items : List Item), Exact str items := by
  intro claim
  obtain ⟨errors, ok, -⟩ := claim (fun _ => "") [[("id", .str "a"), ("type", .arr [])]]
  cases ok

end Nipoto.ConvertKb
