import Nipoto.General.Windows

/-! # What decides about the groups of a packing

A group is closed in front of an item that does not fit, and what is carried over
then begins the next group. So what holds of all groups, or of all neighbouring
groups, is decided where groups are closed.
-/

namespace Nipoto.Packing

variable {α β : Type} (weight : α → Nat) (limit overlap : Nat)

/-- The packer closes its open group in front of `x`. -/
def Closes (p : Packer α) (x : α) : Prop := p.current ≠ [] ∧ limit < p.load + weight x

/-- `Q` holds wherever a group is closed, of the group, its load and the item that does not fit. -/
def AtClosings (Q : List α → Nat → α → Prop) (current : List α) (load : Nat) : List α → Prop
  | [] => True
  | x :: rest =>
      if current ≠ [] ∧ limit < load + weight x then
        Q current load x ∧
          AtClosings Q ((carryOver weight overlap current).1 ++ [x]) ((carryOver weight overlap current).2 + weight x) rest
      else AtClosings Q (current ++ [x]) (load + weight x) rest

/-- What holds at every item of a list holds at the first one and at the others. -/
theorem forall_split_cons {R : List α → α → Prop} {x : α} {rest : List α} :
    (∀ before y after, x :: rest = before ++ y :: after → R before y) ↔
      R [] x ∧ ∀ before y after, rest = before ++ y :: after → R (x :: before) y := by
  constructor
  · intro everywhere
    refine ⟨everywhere [] x rest rfl, ?_⟩
    intro before y after split
    exact everywhere (x :: before) y after (by rw [split]; rfl)
  · intro both before y after split
    cases before with
    | nil =>
        obtain ⟨rfl, rfl⟩ := List.cons.inj split
        exact both.1
    | cons z before =>
        obtain ⟨rfl, later⟩ := List.cons.inj split
        exact both.2 before y after later

@[simp] theorem packFrom_nil (p : Packer α) : packFrom weight limit overlap p [] = p := rfl

theorem packFrom_cons (p : Packer α) (x : α) (items : List α) :
    packFrom weight limit overlap p (x :: items) =
      packFrom weight limit overlap (place weight limit overlap p x) items := rfl

theorem atClosings_iff (Q : List α → Nat → α → Prop) (p : Packer α) (items : List α) :
    AtClosings weight limit overlap Q p.current p.load items ↔
      ∀ before x after, items = before ++ x :: after →
        Closes weight limit (packFrom weight limit overlap p before) x →
          Q (packFrom weight limit overlap p before).current (packFrom weight limit overlap p before).load x := by
  induction items generalizing p with
  | nil =>
      apply iff_of_true trivial
      intro before x after split
      exact absurd split (by simp)
  | cons x rest ih =>
      have next := ih (place weight limit overlap p x)
      rw [forall_split_cons, AtClosings]
      simp only [packFrom_cons, ← next]
      by_cases full : p.current ≠ [] ∧ limit < p.load + weight x
      · simp [Closes, full, place, close]
      · simp [Closes, full, place]

variable {weight limit overlap} {current rest : List α} {load : Nat}

/-- The open group is the first to come, with some of the next items. -/
theorem groupsFrom_head (some : current ≠ []) :
    ∃ more later, groupsFrom weight limit overlap current load rest = (current ++ more) :: later ∧ more <+: rest := by
  induction rest generalizing current load with
  | nil => exact ⟨[], [], by simp [groupsFrom, some], List.prefix_refl _⟩
  | cons x rest ih =>
      rw [groupsFrom]
      split
      · exact ⟨[], _, by rw [List.append_nil], List.nil_prefix⟩
      · obtain ⟨more, later, groups, opens⟩ := @ih (current ++ [x]) (load + weight x) (by simp)
        exact ⟨x :: more, later, by rw [groups]; simp, List.cons_prefix_cons.mpr ⟨rfl, opens⟩⟩

/-- A group is closed: the next one begins with what is carried over. -/
theorem closing_step (positive : ∀ y ∈ current, 0 < weight y) {x : α}
    (full : current ≠ [] ∧ limit < total weight current + weight x) (rest : List α) :
    ∃ before carried, current = before ++ carried ∧ Carried weight overlap before carried ∧
      groupsFrom weight limit overlap current (total weight current) (x :: rest) =
        current :: groupsFrom weight limit overlap (carried ++ [x]) (total weight (carried ++ [x])) rest ∧
      ∀ Q, AtClosings weight limit overlap Q current (total weight current) (x :: rest) ↔
        Q current (total weight current) x ∧
          AtClosings weight limit overlap Q (carried ++ [x]) (total weight (carried ++ [x])) rest := by
  obtain ⟨before, split, load, most⟩ := @carryOver_carried α weight overlap current positive
  refine ⟨before, _, split, most, ?_, fun Q => ?_⟩
  · rw [groupsFrom, if_pos full, load, total_append, total_singleton]
  · rw [AtClosings, if_pos full, load, total_append, total_singleton]

/-- The open group takes the next item. -/
theorem adding_step {x : α} (room : ¬ (current ≠ [] ∧ limit < total weight current + weight x)) (rest : List α) :
    groupsFrom weight limit overlap current (total weight current) (x :: rest) =
        groupsFrom weight limit overlap (current ++ [x]) (total weight (current ++ [x])) rest ∧
      ∀ Q, AtClosings weight limit overlap Q current (total weight current) (x :: rest) ↔
        AtClosings weight limit overlap Q (current ++ [x]) (total weight (current ++ [x])) rest := by
  constructor
  · rw [groupsFrom, if_neg room, total_append, total_singleton]
  · intro Q
    rw [AtClosings, if_neg room, total_append, total_singleton]

/-- No tail of a group that is within the overlap overflows the limit with the next item. -/
def TailsFit (weight : α → Nat) (limit overlap : Nat) (current : List α) (x : α) : Prop :=
  ∀ tail, tail <:+ current → tail ≠ [] → total weight tail ≤ overlap → total weight tail + weight x ≤ limit

theorem Carried.tailsFit_iff {before carried : List α} (most : Carried weight overlap before carried) (x : α) :
    TailsFit weight limit overlap (before ++ carried) x ↔
      carried = [] ∨ total weight carried + weight x ≤ limit := by
  constructor
  · intro fit
    by_cases none : carried = []
    · exact .inl none
    · exact .inr (fit carried (List.suffix_append _ _) none most.fits)
  · intro fit tail ending some within
    obtain ⟨more, split⟩ := most.suffix ending within
    cases fit with
    | inl none => exact absurd (List.append_eq_nil_iff.mp (split.trans none)).2 some
    | inr whole =>
        rw [← split, total_append] at whole
        omega

/-- The tails fit if the group that begins with what is carried is within the limit. -/
theorem Carried.tailsFit_of_within {before carried : List α} (most : Carried weight overlap before carried) {x : α}
    (within : ∀ group ∈ groupsFrom weight limit overlap (carried ++ [x]) load rest,
      2 ≤ group.length → total weight group ≤ limit) :
    TailsFit weight limit overlap (before ++ carried) x := by
  apply (most.tailsFit_iff x).mpr
  by_cases none : carried = []
  · exact .inl none
  · obtain ⟨more, later, groups, -⟩ := @groupsFrom_head α weight limit overlap (carried ++ [x]) rest load (by simp)
    have long : 0 < carried.length := List.length_pos_iff.mpr none
    have first := within (carried ++ [x] ++ more) (by rw [groups]; exact List.mem_cons_self) (by simp; omega)
    rw [total_append, total_append, total_singleton] at first
    exact .inr (by omega)

/-- Groups of two items or more are within the limit just if the tails fit. -/
theorem within_limit_iff (positive : ∀ x ∈ current ++ rest, 0 < weight x)
    (fits : 2 ≤ current.length → total weight current ≤ limit) :
    (∀ group ∈ groupsFrom weight limit overlap current (total weight current) rest,
        2 ≤ group.length → total weight group ≤ limit) ↔
      AtClosings weight limit overlap (fun current _ x => TailsFit weight limit overlap current x) current
        (total weight current) rest := by
  induction rest generalizing current with
  | nil =>
      apply iff_of_true _ trivial
      intro group member
      rw [groupsFrom] at member
      split at member
      · exact absurd member List.not_mem_nil
      · rw [List.mem_singleton.mp member]
        exact fits
  | cons x rest ih =>
      by_cases full : current ≠ [] ∧ limit < total weight current + weight x
      · obtain ⟨before, carried, rfl, most, groups, closings⟩ := @closing_step α weight limit overlap current
          (fun y member => positive y (List.mem_append_left _ member)) x full rest
        have known : ∀ y ∈ carried ++ [x] ++ rest, 0 < weight y := fun y member => positive y (by grind)
        have next := fun fit : TailsFit weight limit overlap (before ++ carried) x =>
          @ih (carried ++ [x]) known fun two => by
            rw [total_append, total_singleton]
            cases (most.tailsFit_iff x).mp fit with
            | inl none => simp [none] at two
            | inr whole => exact whole
        rw [groups, closings]
        constructor
        · intro all
          have later := fun group member => all group (List.mem_cons_of_mem _ member)
          have fit := most.tailsFit_of_within later
          exact ⟨fit, (next fit).mp later⟩
        · intro both group member
          cases member with
          | head => exact fits
          | tail _ later => exact (next both.1).mpr both.2 group later
      · obtain ⟨groups, closings⟩ := @adding_step α weight limit overlap current x full rest
        rw [groups, closings]
        apply ih
        · intro y member
          exact positive y (by simpa using member)
        · intro two
          have some : current ≠ [] := by
            rintro rfl
            simp at two
          rw [total_append, total_singleton]
          exact Nat.not_lt.mp (not_and.mp full some)

/-- A relation of neighbouring groups that is decided where the first one is closed. -/
def Decides (weight : α → Nat) (overlap : Nat) (R : List α → List α → Prop) (Q : List α → Nat → α → Prop) : Prop :=
  ∀ before carried x more, Carried weight overlap before carried → (before ++ carried ++ x :: more).Nodup →
    (R (before ++ carried) (carried ++ x :: more) ↔ Q (before ++ carried) (total weight (before ++ carried)) x)

theorem chain_iff {R : List α → List α → Prop} {Q : List α → Nat → α → Prop} (decides : Decides weight overlap R Q)
    (positive : ∀ x ∈ current ++ rest, 0 < weight x) (distinct : (current ++ rest).Nodup) :
    List.IsChain R (groupsFrom weight limit overlap current (total weight current) rest) ↔
      AtClosings weight limit overlap Q current (total weight current) rest := by
  induction rest generalizing current with
  | nil =>
      apply iff_of_true _ trivial
      rw [groupsFrom]
      split
      · exact List.isChain_nil
      · exact List.isChain_singleton _
  | cons x rest ih =>
      by_cases full : current ≠ [] ∧ limit < total weight current + weight x
      · obtain ⟨before, carried, rfl, most, groups, closings⟩ := @closing_step α weight limit overlap current
          (fun y member => positive y (List.mem_append_left _ member)) x full rest
        have later : (carried ++ [x] ++ rest).Nodup := by
          rw [List.append_assoc] at distinct
          simpa using (List.nodup_append.mp distinct).2.1
        have next := @ih (carried ++ [x]) (fun y member => positive y (by grind)) later
        obtain ⟨more, tail, first, opens⟩ := @groupsFrom_head α weight limit overlap (carried ++ [x]) rest
          (total weight (carried ++ [x])) (by simp)
        have part : (before ++ carried ++ x :: more).Sublist (before ++ carried ++ x :: rest) :=
          (List.Sublist.refl _).append (List.cons_sublist_cons.mpr opens.sublist)
        have here : (before ++ carried ++ x :: more).Nodup := distinct.sublist part
        rw [groups, closings, ← next, first, List.isChain_cons_cons, ← decides before carried x more most here]
        simp
      · obtain ⟨groups, closings⟩ := @adding_step α weight limit overlap current x full rest
        rw [groups, closings]
        apply ih
        · intro y member
          exact positive y (by simpa using member)
        · simpa using distinct

/-- A group holds an item that the next one does not just if it was closed with more than
    the overlap. -/
theorem decides_fresh : Decides weight overlap (fun group next => ∃ y ∈ group, y ∉ next)
    (fun _ load _ => overlap < load) := by
  intro before carried x more most distinct
  have whole := most.before_eq_nil
  constructor
  · intro fresh
    by_contra within
    obtain rfl := whole.mpr (Nat.not_lt.mp within)
    obtain ⟨y, inGroup, notNext⟩ := fresh
    exact notNext (List.mem_append_left _ inGroup)
  · intro long
    have some : before ≠ [] := fun none => absurd (whole.mp none) (Nat.not_le.mpr long)
    refine ⟨before.head some, List.mem_append_left _ (List.head_mem some), ?_⟩
    rw [List.append_assoc, List.nodup_append] at distinct
    intro inNext
    exact distinct.2.2 _ (List.head_mem some) _ inNext rfl

/-- The last item of a group is in the next one just if it is within the overlap. -/
theorem decides_repeated : Decides weight overlap (fun group next => ∀ y ∈ group.getLast?, y ∈ next)
    (fun group _ _ => ∀ y ∈ group.getLast?, weight y ≤ overlap) := by
  intro before carried x more most distinct
  constructor
  · intro repeated y last
    apply (most.carried_ne_nil last).mp
    rintro rfl
    have inNext := repeated y last
    rw [List.nodup_append] at distinct
    exact distinct.2.2 y (List.mem_of_getLast? last) y (by simpa using inNext) rfl
  · intro within y last
    have some := (most.carried_ne_nil last).mpr (within y last)
    rw [List.getLast?_append_of_ne_nil _ some] at last
    exact List.mem_append_left _ (List.mem_of_getLast? last)

theorem carry_map (f : β → α) (earlier carried : List β) (load : Nat) :
    carry weight overlap (earlier.map f) (carried.map f) load =
      ((carry (weight ∘ f) overlap earlier carried load).1.map f,
        (carry (weight ∘ f) overlap earlier carried load).2) := by
  induction earlier generalizing carried load with
  | nil => rfl
  | cons x earlier ih =>
      simp only [List.map_cons, carry, Function.comp]
      split
      · rfl
      · exact ih (x :: carried) (load + weight (f x))

theorem carryOver_map (f : β → α) (current : List β) :
    carryOver weight overlap (current.map f) =
      ((carryOver (weight ∘ f) overlap current).1.map f, (carryOver (weight ∘ f) overlap current).2) := by
  simp only [carryOver]
  split
  · rfl
  · rw [← List.map_reverse]
    exact carry_map f current.reverse [] 0

theorem groupsFrom_map (f : β → α) (current rest : List β) (load : Nat) :
    groupsFrom weight limit overlap (current.map f) load (rest.map f) =
      (groupsFrom (weight ∘ f) limit overlap current load rest).map (List.map f) := by
  induction rest generalizing current load with
  | nil => by_cases none : current = [] <;> simp [groupsFrom, none]
  | cons x rest ih =>
      have closing := ih ((carryOver (weight ∘ f) overlap current).1 ++ [x])
        ((carryOver (weight ∘ f) overlap current).2 + weight (f x))
      have growing := ih (current ++ [x]) (load + weight (f x))
      simp only [List.map_append, List.map_cons, List.map_nil] at closing growing
      by_cases full : current ≠ [] ∧ limit < load + weight (f x)
      · simp [groupsFrom, full, carryOver_map, closing]
      · simp [groupsFrom, full, growing]

theorem atClosings_map (f : β → α) (Q : List α → Nat → α → Prop) (current rest : List β) (load : Nat) :
    AtClosings weight limit overlap Q (current.map f) load (rest.map f) ↔
      AtClosings (weight ∘ f) limit overlap (fun group load x => Q (group.map f) load (f x)) current load rest := by
  induction rest generalizing current load with
  | nil => exact Iff.rfl
  | cons x rest ih =>
      have closing := ih ((carryOver (weight ∘ f) overlap current).1 ++ [x])
        ((carryOver (weight ∘ f) overlap current).2 + weight (f x))
      have growing := ih (current ++ [x]) (load + weight (f x))
      simp only [List.map_append, List.map_cons, List.map_nil] at closing growing
      by_cases full : current ≠ [] ∧ limit < load + weight (f x)
      · simp [AtClosings, full, carryOver_map, closing]
      · simp [AtClosings, full, growing]

end Nipoto.Packing
