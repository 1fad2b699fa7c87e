import Mathlib
import Nipoto.General.Dict
import Nipoto.General.Lexicographic
import Nipoto.Scripts.ConvertRecord

/-! # The conversion of a file

`main` and `stats` of scripts/convert_kb.py. A file is the list of objects that
`json.loads` reads from it, and what `json.dumps` writes is read back as it was.
-/

namespace Nipoto.ConvertKb

open Text

/-- The flags of the command line. -/
structure Flags where
  output : Option String
  check : Bool

structure Outcome where
  printed : List String
  errors : List String
  exit : Nat
  written : Option (List Item)

/-- `k.startswith("_")`. -/
def isPrivate (key : String) : Bool := key.toList.head? = some '_'

def cleaned (item : Item) : Item := item.filter fun field => !isPrivate field.1

/-- `a <= b` for strings. -/
def atMost (a b : String) : Bool := Lexicographic.atMost Char.toNat a.toList b.toList

def rowAtMost (a b : String × Nat) : Bool := atMost a.1 b.1

variable (str : Json → String)

/-- `f"{it.get('type')}/{it.get('visibility')}"`. -/
def label (item : Item) : String := written str (get item "type") ++ "/" ++ written str (get item "visibility")

/-- `sorted(by_type.items())`; the labels are distinct. -/
def byType (items : List Item) : List (String × Nat) :=
  (Dict.tally (items.map (label str))).mergeSort rowAtMost

/-- The lines of `stats`. -/
def stats (items : List Item) : List String :=
  ("items: " ++ toString items.length) :: (byType str items).map fun row => "  " ++ row.1 ++ ": " ++ toString row.2

/-- What follows the check. -/
def finish (flags : Flags) (items : List Item) (errors : List String) : Outcome :=
  let printed := stats str items
  if errors ≠ [] then { printed, errors, exit := 1, written := none }
  else
    match flags.output, flags.check with
    | some path, false =>
        { printed := printed ++ ["written: " ++ path], errors, exit := 0, written := some (items.map cleaned) }
    | _, _ => { printed, errors, exit := 0, written := none }

def main (now : Nat → Timestamp) (flags : Flags) (records : List Item) : Except TypeError Outcome := do
  let items := if flags.check then records else convertAll str now records
  return finish str flags items (← validate str items)

theorem get_cleaned {key : String} (shown : isPrivate key = false) (item : Item) : get (cleaned item) key = get item key := by
  unfold get
  congr 1
  induction item with
  | nil => rfl
  | cons field rest ih =>
      by_cases same : key = field.1
      · subst same
        rw [cleaned, List.filter_cons_of_pos (by simp [shown]), List.lookup_cons, List.lookup_cons, beq_self_eq_true]
      · have skipped : (key == field.1) = false := beq_false_of_ne same
        rw [List.lookup_cons, skipped, ← ih, cleaned, List.filter_cons]
        split
        · rw [List.lookup_cons, skipped]
          rfl
        · rfl

theorem cleaned_cleaned (item : Item) : cleaned (cleaned item) = cleaned item := by
  simp [cleaned, List.filter_filter]

theorem validateItem_cleaned (seen : List Key) (i : Nat) (item : Item) :
    validateItem str seen i (cleaned item) = validateItem str seen i item := by
  have id : get (cleaned item) "id" = get item "id" := get_cleaned (by decide) item
  have refs : ref i (cleaned item) = ref i item := by rw [ref, ref, id]
  have missing : (required.filter fun name => !(get (cleaned item) name).truthy) =
      required.filter fun name => !(get item name).truthy := by
    refine List.filter_congr fun name member => ?_
    rw [get_cleaned (by revert member name; decide) item]
  have type : get (cleaned item) "type" = get item "type" := get_cleaned (by decide) item
  have visibility : get (cleaned item) "visibility" = get item "visibility" := get_cleaned (by decide) item
  simp only [validateItem, refs, missing, type, visibility]

theorem validate_cleaned (items : List Item) : validate str (items.map cleaned) = validate str items := by
  have same : ∀ (seen : List Key) (i : Nat), validateFrom str seen i (items.map cleaned) = validateFrom str seen i items := by
    induction items with
    | nil => exact fun _ _ => rfl
    | cons item rest ih =>
        intro seen i
        simp only [List.map_cons, validateFrom, validateItem_cleaned, ih]
  exact same [] 0

theorem stats_cleaned (items : List Item) : stats str (items.map cleaned) = stats str items := by
  have labels : (items.map cleaned).map (label str) = items.map (label str) := by
    rw [List.map_map]
    refine List.map_congr_left fun item _ => ?_
    have type : get (cleaned item) "type" = get item "type" := get_cleaned (by decide) item
    have visibility : get (cleaned item) "visibility" = get item "visibility" := get_cleaned (by decide) item
    simp only [Function.comp, label, type, visibility]
  simp only [stats, byType, labels, List.length_map]

theorem present_of_truthy {item : Item} {key : String} (there : (get item key).truthy = true) :
    key ∈ item.map Prod.fst := by
  by_contra absent
  rw [get, Dict.lookup_eq_none_iff.mpr absent] at there
  exact absurd there (by decide)

theorem isImport_cleaned {item : Item} (complete : Complete item) : IsImport (cleaned item) := by
  intro name member
  refine present_of_truthy ?_
  rw [get_cleaned (by revert member name; decide)]
  exact complete.required name (by revert member name; decide)

theorem convertAll_imports {now : Nat → Timestamp} {records : List Item} (imports : ∀ record ∈ records, IsImport record) :
    convertAll str now records = records := by
  refine List.ext_getElem (by simp [convertAll]) fun i _ below => ?_
  simp only [convertAll, List.getElem_mapIdx]
  exact if_pos (imports _ (List.getElem_mem below))

/-- What was written is a file that passes the check, and converting it writes it
    again with the same report. -/
structure Settled (path : String) (file : List Item) (outcome : Outcome) : Prop where
  again : ∀ now, main str now { output := some path, check := false } file = .ok outcome
  checked : ∀ now output, main str now { output, check := true } file =
    .ok { printed := stats str file, errors := [], exit := 0, written := none }

theorem written_settled {now : Nat → Timestamp} {path : String} {records file : List Item} {outcome : Outcome}
    (done : main str now { output := some path, check := false } records = .ok outcome)
    (wrote : outcome.written = some file) : Settled str path file outcome := by
  have ran : (validate str (convertAll str now records)).map
      (finish str { output := some path, check := false } (convertAll str now records)) = .ok outcome := done
  cases checked : validate str (convertAll str now records) with
  | error e =>
      rw [checked] at ran
      cases ran
  | ok errors =>
      rw [checked] at ran
      obtain rfl := Except.ok.inj ran
      have silent : errors = [] := by
        by_contra found
        simp only [finish, if_pos found] at wrote
        cases wrote
      subst silent
      obtain rfl : (convertAll str now records).map cleaned = file := Option.some.inj wrote
      have complete := (validate_silent_iff str).mp checked
      have imports : ∀ record ∈ (convertAll str now records).map cleaned, IsImport record := by
        intro record member
        obtain ⟨item, here, rfl⟩ := List.mem_map.mp member
        exact isImport_cleaned (complete.2.complete item here)
      have passes : validate str ((convertAll str now records).map cleaned) = .ok [] := by
        rw [validate_cleaned, checked]
      have twice : ((convertAll str now records).map cleaned).map cleaned = (convertAll str now records).map cleaned := by
        rw [List.map_map]
        exact List.map_congr_left fun item _ => cleaned_cleaned item
      constructor
      · intro later
        simp only [main, Bool.false_eq_true, if_false, convertAll_imports str imports, passes, bind, Except.bind, pure,
          Except.pure, finish, ne_eq, not_true_eq_false, stats_cleaned, twice]
      · intro later output
        simp only [main, if_true, passes, bind, Except.bind, pure, Except.pure, finish, ne_eq, not_true_eq_false,
          if_false]

/-- A record with a tag of its own, and its import item as it is written. -/
def depositRecord : Item :=
  [("_id", .str "12"), ("question", .str " Deposit? "), ("answer", .str "By card."), ("department", .str "wallet"),
    ("updatedAt", .str "2024-05-01")]

def depositFile : List Item :=
  [[("id", .str "faq_12"), ("type", .str "faq"), ("visibility", .str "public"), ("title", .str "Deposit?"),
    ("body", .str "By card."), ("url", .str "https://nipoto.com/faq/wallet/faq_12"), ("updated_at", .str "2024-05-01")]]

def depositOutcome : Outcome :=
  { printed := ["items: 1", "  faq/public: 1", "written: kb.json"], errors := [], exit := 0, written := some depositFile }

theorem main_deposit : main (fun _ => "") (fun _ => ⟨"2024-06-01", by decide⟩) { output := some "kb.json", check := false }
    [depositRecord] = .ok depositOutcome := by
  have converted : convertAll (fun _ => "") (fun _ => ⟨"2024-06-01", by decide⟩) [depositRecord] =
      depositFile.map fun item => item ++ [("_topic", .str "wallet")] := by rfl
  have passes : validate (fun _ => "") (depositFile.map fun item => item ++ [("_topic", .str "wallet")]) = .ok [] := by rfl
  have tally : Dict.tally ((depositFile.map fun item => item ++ [("_topic", .str "wallet")]).map (label fun _ => "")) =
      [("faq/public", 1)] := by rfl
  simp only [main, Bool.false_eq_true, if_false, converted, passes, bind, Except.bind, pure, Except.pure, finish, stats,
    byType, tally, List.mergeSort_singleton]
  rfl

theorem written_settled_deposit : Settled (fun _ => "") "kb.json" depositFile depositOutcome :=
  @written_settled (fun _ => "") (fun _ => ⟨"2024-06-01", by decide⟩) "kb.json" [depositRecord] depositFile
    depositOutcome main_deposit rfl

/-- The rows go up in their labels, have one for each label that occurs with the number
    of its items, and count all items. -/
structure Tallied (items : List Item) (rows : List (String × Nat)) : Prop where
  ascending : rows.Pairwise fun a b => atMost b.1 a.1 = false
  counts : ∀ name n, (name, n) ∈ rows ↔ 0 < n ∧ n = (items.map (label str)).count name
  total : (rows.map Prod.snd).sum = items.length

theorem atMost_antisymm {a b : String} (first : atMost a b = true) (second : atMost b a = true) : a = b :=
  String.toList_inj.mp (Lexicographic.atMost_antisymm Lexicographic.toNat_injective first second)

theorem rowAtMost_trans (a b c : String × Nat) (first : rowAtMost a b = true) (second : rowAtMost b c = true) :
    rowAtMost a c = true := Lexicographic.atMost_trans Lexicographic.toNat_injective first second

theorem rowAtMost_total (a b : String × Nat) : (rowAtMost a b || rowAtMost b a) = true := Lexicographic.atMost_total

theorem byType_perm (items : List Item) : (byType str items).Perm (Dict.tally (items.map (label str))) :=
  List.mergeSort_perm _ _

theorem byType_distinct (items : List Item) : ((byType str items).map Prod.fst).Nodup :=
  ((byType_perm str items).map Prod.fst).nodup_iff.mpr (Dict.tally_distinct _)

theorem mem_byType {items : List Item} {name : String} {n : Nat} :
    (name, n) ∈ byType str items ↔ 0 < n ∧ n = (items.map (label str)).count name := by
  rw [(byType_perm str items).mem_iff, Dict.mem_iff_lookup (Dict.tally_distinct _), Dict.lookup_tally]
  split
  · rename_i occurs
    have positive := List.count_pos_iff.mpr occurs
    constructor
    · intro same
      have count : (items.map (label str)).count name = n := Option.some.inj same
      exact ⟨count ▸ positive, count.symm⟩
    · exact fun both => congrArg some both.2.symm
  · rename_i absent
    rw [List.count_eq_zero_of_not_mem absent]
    constructor
    · exact fun same => nomatch same
    · exact fun both => absurd both.2 (Nat.pos_iff_ne_zero.mp both.1)

theorem labels_byType (items : List Item) :
    ((byType str items).map Prod.fst).Perm (items.map (label str)).dedup := by
  refine (List.perm_ext_iff_of_nodup (byType_distinct str items) (List.nodup_dedup _)).mpr fun name => ?_
  rw [List.mem_dedup, List.mem_map, ← List.count_pos_iff (l := items.map (label str))]
  constructor
  · rintro ⟨row, member, rfl⟩
    obtain ⟨positive, count⟩ := (mem_byType str).mp member
    exact count ▸ positive
  · exact fun positive => ⟨(name, _), (mem_byType str).mpr ⟨positive, rfl⟩, rfl⟩

theorem counts_byType (items : List Item) : (byType str items).map Prod.snd =
    ((byType str items).map Prod.fst).map fun name => (items.map (label str)).count name := by
  rw [List.map_map]
  exact List.map_congr_left fun row member => ((mem_byType str).mp member).2

theorem byType_tallied (items : List Item) : Tallied str items (byType str items) where
  ascending := by
    have sorted : (byType str items).Pairwise fun a b => rowAtMost a b = true :=
      List.pairwise_mergeSort rowAtMost_trans rowAtMost_total _
    have apart : (byType str items).Pairwise fun a b => a.1 ≠ b.1 := List.pairwise_map.mp (byType_distinct str items)
    refine (sorted.and apart).imp fun both => ?_
    rw [Bool.eq_false_iff]
    exact fun back => both.2 (atMost_antisymm both.1 back)
  counts := fun _ _ => mem_byType str
  total := by
    rw [← List.length_map (label str), ← List.sum_map_count_dedup_eq_length]
    refine List.Perm.sum_eq ?_
    rw [counts_byType]
    exact (labels_byType str items).map _

end Nipoto.ConvertKb
