import Mathlib.Data.List.Infix

/-! # Packing a list into groups

Items are packed greedily, in order, into groups under a weight limit. A new
group may begin with the tail of the one before, as far as an overlap weight
allows.
-/

namespace Nipoto.Packing

variable {α : Type} (weight : α → Nat) (limit overlap : Nat)

/-- The groups that are closed, and the open one with its weight. -/
structure Packer (α : Type) where
  groups : List (List α) := []
  current : List α := []
  load : Nat := 0

/-- Walk backwards over a group, from its last item, while the weight allows. -/
def carry : List α → List α → Nat → List α × Nat
  | [], carried, total => (carried, total)
  | x :: earlier, carried, total =>
      if overlap < total + weight x then (carried, total)
      else carry earlier (x :: carried) (total + weight x)

def carryOver (current : List α) : List α × Nat :=
  if overlap = 0 then ([], 0) else carry weight overlap current.reverse [] 0

/-- Close the open group and begin the next one with what is carried over. -/
def close (p : Packer α) : Packer α :=
  let (carried, load) := carryOver weight overlap p.current
  { groups := p.groups ++ [p.current], current := carried, load }

def place (p : Packer α) (x : α) : Packer α :=
  let p := if p.current ≠ [] ∧ limit < p.load + weight x then close weight overlap p else p
  { p with current := p.current ++ [x], load := p.load + weight x }

def finish (p : Packer α) : List (List α) :=
  if p.current = [] then p.groups else p.groups ++ [p.current]

def packFrom (p : Packer α) (items : List α) : Packer α := items.foldl (place weight limit overlap) p

def pack (items : List α) : List (List α) := finish (packFrom weight limit overlap {} items)

variable {weight limit overlap} {p : Packer α}

/-- The closed groups and a last part of the open one hold every packed item, in
    order, and the first group begins as the items do. -/
structure Holds (packed : List α) (p : Packer α) : Prop where
  kept : ∃ carried fresh, p.current = carried ++ fresh ∧ packed.Sublist (p.groups.flatten ++ fresh)
  opening : (p.groups = [] ∧ p.current = packed) ∨
    ∃ first rest, p.groups = first :: rest ∧ first ≠ [] ∧ first <+: packed
  known : ∀ x ∈ p.groups.flatten ++ p.current, x ∈ packed
  filled : ∀ group ∈ p.groups, group ≠ []

theorem holds_nothing : Holds ([] : List α) {} where
  kept := ⟨[], [], rfl, List.Sublist.refl []⟩
  opening := .inl ⟨rfl, rfl⟩
  known := by simp
  filled := by simp

theorem mem_carry {x : α} {earlier carried : List α} {total : Nat}
    (member : x ∈ (carry weight overlap earlier carried total).1) : x ∈ earlier ∨ x ∈ carried := by
  induction earlier generalizing carried total with
  | nil => exact .inr member
  | cons y earlier ih =>
      simp only [carry] at member
      split at member
      · exact .inr member
      · cases ih member with
        | inl inEarlier => exact .inl (List.mem_cons_of_mem y inEarlier)
        | inr inCarried =>
            cases List.mem_cons.mp inCarried with
            | inl same => exact .inl (same ▸ List.mem_cons_self)
            | inr inCarried => exact .inr inCarried

theorem mem_carryOver {x : α} {current : List α}
    (member : x ∈ (carryOver weight overlap current).1) : x ∈ current := by
  simp only [carryOver] at member
  split at member
  · exact absurd member (by simp)
  · cases mem_carry member with
    | inl inCurrent => exact List.mem_reverse.mp inCurrent
    | inr inNothing => exact absurd inNothing (by simp)

theorem close_holds {packed : List α} (holds : Holds packed p) (filled : p.current ≠ []) :
    Holds packed (close weight overlap p) where
  kept := by
    obtain ⟨carried, fresh, split, sub⟩ := holds.kept
    refine ⟨(close weight overlap p).current, [], (List.append_nil _).symm, ?_⟩
    have covers : (p.groups.flatten ++ fresh).Sublist (p.groups.flatten ++ p.current) :=
      (List.Sublist.refl _).append (split ▸ List.sublist_append_right carried fresh)
    simpa [close] using sub.trans covers
  opening := by
    cases holds.opening with
    | inl only =>
        refine .inr ⟨p.current, [], by simp [close, only.1], filled, ?_⟩
        rw [only.2]
    | inr several =>
        obtain ⟨first, rest, groups, opens⟩ := several
        exact .inr ⟨first, rest ++ [p.current], by simp [close, groups], opens⟩
  known := by
    intro x member
    apply holds.known
    simp only [close, List.flatten_append, List.flatten_cons, List.flatten_nil, List.append_nil,
      List.mem_append] at member ⊢
    cases member with
    | inl closed => exact closed
    | inr carried => exact .inr (mem_carryOver carried)
  filled := by
    intro group member
    cases List.mem_append.mp member with
    | inl earlier => exact holds.filled group earlier
    | inr last => exact List.mem_singleton.mp last ▸ filled

theorem add_holds {packed : List α} (holds : Holds packed p) (x : α) (load : Nat) :
    Holds (packed ++ [x]) { p with current := p.current ++ [x], load } where
  kept := by
    obtain ⟨carried, fresh, split, sub⟩ := holds.kept
    refine ⟨carried, fresh ++ [x], by simp [split], ?_⟩
    rw [← List.append_assoc]
    exact sub.append (List.Sublist.refl [x])
  opening := by
    cases holds.opening with
    | inl only => exact .inl ⟨only.1, by simp [only.2]⟩
    | inr several =>
        obtain ⟨first, rest, groups, filled, opens⟩ := several
        exact .inr ⟨first, rest, groups, filled, opens.trans (List.prefix_append packed [x])⟩
  known := by
    intro y member
    rw [← List.append_assoc] at member
    cases List.mem_append.mp member with
    | inl earlier => exact List.mem_append_left [x] (holds.known y earlier)
    | inr last => exact List.mem_append_right packed last
  filled := holds.filled

theorem place_holds {packed : List α} (holds : Holds packed p) (x : α) :
    Holds (packed ++ [x]) (place weight limit overlap p x) := by
  simp only [place]
  split
  · rename_i full
    exact add_holds (close_holds holds full.1) x _
  · exact add_holds holds x _

theorem packFrom_holds {packed : List α} (holds : Holds packed p) (items : List α) :
    Holds (packed ++ items) (packFrom weight limit overlap p items) := by
  induction items generalizing packed p with
  | nil => simpa [packFrom] using holds
  | cons x items ih =>
      have step : Holds (packed ++ [x]) (place weight limit overlap p x) := place_holds holds x
      simpa [packFrom] using ih step

variable (weight limit overlap) (items : List α)

theorem pack_holds : Holds items (packFrom weight limit overlap {} items) := by
  simpa using packFrom_holds holds_nothing items

theorem flatten_finish : (finish p).flatten = p.groups.flatten ++ p.current := by
  cases last : p.current <;> simp [finish, last]

theorem sublist_pack : items.Sublist (pack weight limit overlap items).flatten := by
  obtain ⟨carried, fresh, split, sub⟩ := (pack_holds weight limit overlap items).kept
  rw [pack, flatten_finish, split]
  exact sub.trans ((List.Sublist.refl _).append (List.sublist_append_right carried fresh))

theorem mem_of_mem_pack {group : List α} {x : α} (packed : group ∈ pack weight limit overlap items)
    (member : x ∈ group) : x ∈ items := by
  apply (pack_holds weight limit overlap items).known
  rw [← flatten_finish]
  exact List.mem_flatten.mpr ⟨group, packed, member⟩

theorem ne_nil_of_mem_pack {group : List α} (packed : group ∈ pack weight limit overlap items) :
    group ≠ [] := by
  have filled := (pack_holds weight limit overlap items).filled
  simp only [pack, finish] at packed
  split at packed
  · exact filled group packed
  · rename_i last
    cases List.mem_append.mp packed with
    | inl earlier => exact filled group earlier
    | inr atEnd => exact List.mem_singleton.mp atEnd ▸ last

/-- The first group opens with the first items. -/
theorem pack_opening (some : items ≠ []) :
    ∃ first rest, pack weight limit overlap items = first :: rest ∧ first ≠ [] ∧ first <+: items := by
  cases (pack_holds weight limit overlap items).opening with
  | inl only =>
      have last : (packFrom weight limit overlap {} items).current ≠ [] := only.2.symm ▸ some
      refine ⟨items, [], ?_, some, List.prefix_refl items⟩
      rw [pack, finish, if_neg last, only.1, only.2]
      rfl
  | inr several =>
      obtain ⟨first, rest, groups, opens⟩ := several
      simp only [pack, finish, groups]
      split
      · exact ⟨first, rest, rfl, opens⟩
      · exact ⟨first, rest ++ _, rfl, opens⟩

end Nipoto.Packing
