import Mathlib.Data.List.Nodup
import Nipoto.Connectors.Contract
import Nipoto.Connectors.Http

/-! # Synchronising the knowledge base

A server of `GET /kb/items` as contracts/main-backend.openapi.yaml describes it,
and what the connector reads from it. The connector names its parameter
`updatedSince` and reads one page, so it always gets the first page of all items,
and nothing if a date on that page is not one that the standard library reads.
-/

namespace Nipoto.Connectors

/-- A server that keeps to the contract. It filters by `updated_since`, ignores
    parameters it does not know, and cuts each listing into pages. -/
structure KbServer where
  /-- All items, tombstones included, in the order of the server. -/
  items : List KbEntry
  distinct : (items.map (·.id)).Nodup
  changed : DateTime → KbEntry → Bool
  /-- The items that changed since a date. -/
  listing : DateTime → List KbEntry
  complete : ∀ since, (listing since).Perm (items.filter (changed since))
  pageSize : Nat
  positive : 0 < pageSize
  wire : KbEntry → Properties
  written : ∀ entry ∈ items, KbItemSchema entry (wire entry)
  /-- The date of a query. -/
  readSince : String → Option DateTime
  cursor : Nat → String
  position : String → Option Nat
  position_cursor : ∀ index, position (cursor index) = some index

namespace KbServer

variable (server : KbServer)

/-- An item that changed since a date, or any item. -/
def isChanged (since : Option DateTime) (entry : KbEntry) : Bool := since.all (server.changed · entry)

def listed : Option DateTime → List KbEntry
  | none => server.items
  | some since => server.listing since

def page (since : Option DateTime) (index : Nat) : List KbEntry :=
  ((server.listed since).drop (index * server.pageSize)).take server.pageSize

def pageBody (since : Option DateTime) (index : Nat) : Json :=
  .obj [("items", .arr ((server.page since index).map fun entry => .obj (server.wire entry))),
    ("next_cursor",
      if (index + 1) * server.pageSize < (server.listed since).length then .str (server.cursor (index + 1)) else .null)]

/-- A text parameter of a query. -/
def textParam (params : List (String × Json)) (name : String) : Option String :=
  match params.lookup name with
  | some (.str text) => some text
  | _ => none

def respond (params : List (String × Json)) : Answer :=
  let index := ((textParam params "cursor").bind server.position).getD 0
  match textParam params "updated_since" with
  | none => .response { status := 200, body := some (server.pageBody none index) }
  | some text =>
      match server.readSince text with
      | some since => .response { status := 200, body := some (server.pageBody (some since) index) }
      | none => .response { status := 400, body := none }

variable (fromisoformat : String → Option DateTime) (requestId : Option String) (isoformat : DateTime → String)
  (updatedSince : Option DateTime)

/-- What the connector gets from the server. -/
def sync : Except Error (List (KbItem Json)) :=
  let backend : HttpMainBackend := { requestId, fromisoformat, isoformat }
  (backend.listKbItems (fun _ => server.respond (backend.requestOf (.listKbItems updatedSince)).params)
    updatedSince).1

/-- The items that changed, as the client's models have them. -/
def changedItems : List (KbItem Json) :=
  (server.items.filter (server.isChanged updatedSince)).map (KbEntry.item fromisoformat)

/-- The date is one that `datetime.fromisoformat` reads. -/
def Readable (entry : KbEntry) : Prop := (fromisoformat (withOffset entry.updatedAt)).isSome

variable {server} {updatedSince}

/-- The filter is not applied, since the server does not know `updatedSince`. -/
theorem respond_unfiltered :
    server.respond
        (HttpMainBackend.requestOf { requestId, fromisoformat, isoformat } (.listKbItems updatedSince)).params =
      .response { status := 200, body := some (server.pageBody none 0) } := by
  cases updatedSince <;> rfl

/-- Entries by the contract are read as the items that they are, or not at all. -/
theorem read_entries {entries : List KbEntry} (known : ∀ entry ∈ entries, entry ∈ server.items)
    (found : List (KbItem Json)) :
    (entries.map fun entry => Json.obj (server.wire entry)).mapM (kbItemFromJson fromisoformat) = .ok found ↔
      (∀ entry ∈ entries, Readable fromisoformat entry) ∧ found = entries.map (KbEntry.item fromisoformat) := by
  induction entries generalizing found with
  | nil => simp [pure, Except.pure, eq_comm]
  | cons entry rest ih =>
      have here := kbItemFromJson_written fromisoformat (server.written entry (known entry List.mem_cons_self))
      have later := ih fun other member => known other (List.mem_cons_of_mem entry member)
      rw [List.map_cons, List.mapM_cons, here, readDate, List.forall_mem_cons, Readable]
      cases fromisoformat (withOffset entry.updatedAt) with
      | none => simp [Except.map, bind, Except.bind]
      | some time =>
          simp only [Except.map, bind, Except.bind, Option.isSome_some, true_and, List.map_cons]
          cases read : (rest.map fun entry => Json.obj (server.wire entry)).mapM (kbItemFromJson fromisoformat) with
          | error e =>
              have unread := later (rest.map (KbEntry.item fromisoformat))
              simp only [read, reduceCtorEq, and_true, false_iff] at unread
              exact iff_of_false (by simp) fun both => unread both.1
          | ok items =>
              obtain ⟨readable, rfl⟩ := (later items).mp read
              simp only [pure, Except.pure, Except.ok.injEq, eq_comm]
              exact (and_iff_right readable).symm

theorem sync_ok (found : List (KbItem Json)) :
    server.sync fromisoformat requestId isoformat updatedSince = .ok found ↔
      (∀ entry ∈ server.items.take server.pageSize, Readable fromisoformat entry) ∧
        found = (server.items.take server.pageSize).map (KbEntry.item fromisoformat) := by
  have first : server.page none 0 = server.items.take server.pageSize := by
    rw [page, Nat.zero_mul, List.drop_zero]
    rfl
  rw [← first, ← read_entries fromisoformat fun entry member =>
    List.mem_of_mem_take (first ▸ member : entry ∈ server.items.take server.pageSize)]
  simp only [sync, respond_unfiltered]
  rfl

theorem mem_take_iff {α : Type} {items : List α} (distinct : items.Nodup) {index : Nat} {x : α}
    (here : items[index]? = some x) (count : Nat) : x ∈ items.take count ↔ index < count := by
  obtain ⟨inside, rfl⟩ := List.getElem?_eq_some_iff.mp here
  constructor
  · intro member
    obtain ⟨other, below, same⟩ := List.mem_take_iff_getElem.mp member
    obtain rfl := (distinct.getElem_inj_iff).mp same
    omega
  · intro below
    exact List.mem_take_iff_getElem.mpr ⟨index, by omega, rfl⟩

theorem filter_eq_take {α : Type} {items : List α} {p : α → Bool} {count : Nat}
    (first : ∀ (index : Nat) x, items[index]? = some x → (p x = true ↔ index < count)) :
    items.filter p = items.take count := by
  have front : (items.take count).filter p = items.take count := by
    apply List.filter_eq_self.mpr
    intro x member
    obtain ⟨index, below, rfl⟩ := List.mem_take_iff_getElem.mp member
    exact (first index _ (List.getElem?_eq_getElem (by omega))).mpr (by omega)
  have back : (items.drop count).filter p = [] := by
    apply List.filter_eq_nil_iff.mpr
    intro x member
    obtain ⟨index, below, rfl⟩ := List.mem_drop_iff_getElem.mp member
    intro isTrue
    have early := (first (count + index) _ (List.getElem?_eq_getElem (by omega))).mp isTrue
    omega
  calc items.filter p = (items.take count).filter p ++ (items.drop count).filter p := by
        rw [← List.filter_append, List.take_append_drop]
    _ = items.take count := by rw [front, back, List.append_nil]

theorem mem_item_iff {entry : KbEntry} {entries : List KbEntry} (known : entry ∈ server.items)
    (among : ∀ other ∈ entries, other ∈ server.items) :
    entry.item fromisoformat ∈ entries.map (KbEntry.item fromisoformat) ↔ entry ∈ entries := by
  constructor
  · intro member
    obtain ⟨other, inEntries, same⟩ := List.mem_map.mp member
    have ids : other.id = entry.id := Json.str.inj (congrArg KbItem.id same)
    rwa [← List.inj_on_of_nodup_map server.distinct (among other inEntries) known ids]
  · exact List.mem_map_of_mem

/-- The connector gets exactly the changed items just when these are the items that stand
    within the first page of all items, and every date on that page is readable. -/
theorem sync_exact_iff (server : KbServer) (fromisoformat : String → Option DateTime) (requestId : Option String)
    (isoformat : DateTime → String) (updatedSince : Option DateTime) :
    (∃ found, server.sync fromisoformat requestId isoformat updatedSince = .ok found ∧
        found.Perm (server.changedItems fromisoformat updatedSince)) ↔
      ∀ (index : Nat) entry, server.items[index]? = some entry →
        (server.isChanged updatedSince entry = true ↔ index < server.pageSize) ∧
          (index < server.pageSize → Readable fromisoformat entry) := by
  have distinct : server.items.Nodup := List.Nodup.of_map _ server.distinct
  simp only [sync_ok, and_assoc, exists_and_left, exists_eq_left, changedItems]
  constructor
  · rintro ⟨readable, same⟩ index entry here
    have known : entry ∈ server.items := List.mem_of_getElem? here
    have onPage := mem_take_iff distinct here server.pageSize
    refine ⟨?_, fun below => readable entry (onPage.mpr below)⟩
    have alike := same.mem_iff (a := entry.item fromisoformat)
    rw [mem_item_iff fromisoformat known fun _ => List.mem_of_mem_take,
      mem_item_iff fromisoformat known fun _ member => List.mem_of_mem_filter member] at alike
    rw [← onPage, alike, List.mem_filter, and_iff_right known]
  · intro first
    refine ⟨fun entry member => ?_, ?_⟩
    · obtain ⟨index, below, rfl⟩ := List.mem_take_iff_getElem.mp member
      exact (first index _ (List.getElem?_eq_getElem (by omega))).2 (by omega)
    · rw [filter_eq_take fun index entry here => (first index entry here).1]

/-- Two dates in the notation of the wire. -/
def twoDates : String → Option DateTime
  | "2026-01-01T00:00:00+00:00" => some { reading := 0, offset := some 0 }
  | "2026-02-01T00:00:00+00:00" => some { reading := 1, offset := some 0 }
  | _ => none

def faq (id updatedAt : String) : KbEntry := { id, type := .faq, visibility := .everyone, updatedAt }

def faqWire (entry : KbEntry) : Properties :=
  [("id", .str entry.id), ("type", .str entry.type.name), ("visibility", .str entry.visibility.name),
    ("updatedAt", .str entry.updatedAt)]

/-- One item changed in January and one in February; all items fit on a page. -/
def twoItems : KbServer where
  items := [faq "old" "2026-01-01T00:00:00Z", faq "new" "2026-02-01T00:00:00Z"]
  distinct := by simp [faq]
  changed since entry := (twoDates (withOffset entry.updatedAt)).any fun updatedAt => since.reading < updatedAt.reading
  listing since := [faq "old" "2026-01-01T00:00:00Z", faq "new" "2026-02-01T00:00:00Z"].filter fun entry =>
    (twoDates (withOffset entry.updatedAt)).any fun updatedAt => since.reading < updatedAt.reading
  complete since := List.Perm.refl _
  pageSize := 50
  positive := by decide
  wire := faqWire
  written := by
    have one : ∀ id updatedAt, updatedAt ≠ "" → KbItemSchema (faq id updatedAt) (faqWire (faq id updatedAt)) := by
      intro id updatedAt some
      exact ⟨rfl, rfl, rfl, .inr ⟨rfl, rfl⟩, .inr ⟨rfl, rfl⟩, .absent rfl, ⟨rfl, some⟩, .inr ⟨rfl, rfl⟩⟩
    intro entry member
    rcases List.mem_cons.mp member with rfl | member
    · exact one _ _ (by decide)
    · rw [List.mem_singleton.mp member]
      exact one _ _ (by decide)
  readSince := twoDates
  cursor index := String.ofList (List.replicate index '.')
  position text := some text.toList.length
  position_cursor := by simp

/-- Asked for the items since January, the connector returns all of them. -/
theorem filter_is_ignored :
    ¬ ∀ (server : KbServer) (fromisoformat : String → Option DateTime) (requestId : Option String)
      (isoformat : DateTime → String) (updatedSince : Option DateTime),
      ∃ found, server.sync fromisoformat requestId isoformat updatedSince = .ok found ∧
        found.Perm (server.changedItems fromisoformat updatedSince) := by
  intro always
  obtain ⟨found, synced, same⟩ := always twoItems twoDates none (fun _ => "2026-01-01T00:00:00+00:00")
    (some { reading := 0, offset := some 0 })
  obtain ⟨-, rfl⟩ := (sync_ok twoDates none _ found).mp synced
  exact absurd same.length_eq (by decide)

end KbServer

end Nipoto.Connectors
