import Mathlib.Algebra.GroupWithZero.Nat
import Mathlib.Data.List.Chain
import Nipoto.General.Packing

/-! # The groups of a packing

The groups by recursion on the items, what is carried from one to the next, and
the groups as overlapping windows of the items.
-/

namespace Nipoto.Packing

variable {α : Type} (weight : α → Nat) (limit overlap : Nat)

def total (items : List α) : Nat := (items.map weight).sum

/-- The groups that are still to come, from the open one on. -/
def groupsFrom (current : List α) (load : Nat) : List α → List (List α)
  | [] => if current = [] then [] else [current]
  | x :: rest =>
      if current ≠ [] ∧ limit < load + weight x then
        current ::
          groupsFrom ((carryOver weight overlap current).1 ++ [x]) ((carryOver weight overlap current).2 + weight x) rest
      else groupsFrom (current ++ [x]) (load + weight x) rest

theorem finish_packFrom (p : Packer α) (items : List α) :
    finish (packFrom weight limit overlap p items) =
      p.groups ++ groupsFrom weight limit overlap p.current p.load items := by
  induction items generalizing p with
  | nil =>
      by_cases last : p.current = []
      · simp [packFrom, finish, groupsFrom, last]
      · simp [packFrom, finish, groupsFrom, last]
  | cons x rest ih =>
      have next := ih (place weight limit overlap p x)
      simp only [packFrom, List.foldl_cons] at next ⊢
      rw [next]
      by_cases full : p.current ≠ [] ∧ limit < p.load + weight x
      · simp [place, close, groupsFrom, full]
      · simp [place, groupsFrom, full]

theorem pack_groupsFrom (items : List α) :
    pack weight limit overlap items = groupsFrom weight limit overlap [] 0 items :=
  finish_packFrom weight limit overlap {} items

/-- With no overlap the groups are the items, cut. -/
theorem flatten_groupsFrom (current : List α) (load : Nat) (items : List α) :
    (groupsFrom weight limit 0 current load items).flatten = current ++ items := by
  induction items generalizing current load with
  | nil => by_cases last : current = [] <;> simp [groupsFrom, last]
  | cons x rest ih =>
      rw [groupsFrom]
      split
      · rw [List.flatten_cons, ih, carryOver, if_pos rfl]
        rfl
      · rw [ih, List.append_assoc]
        rfl

theorem flatten_pack (items : List α) : (pack weight limit 0 items).flatten = items := by
  rw [pack_groupsFrom, flatten_groupsFrom, List.nil_append]

theorem total_append (a b : List α) : total weight (a ++ b) = total weight a + total weight b := by
  simp [total]

theorem total_singleton (x : α) : total weight [x] = weight x := by simp [total]

variable {weight limit overlap}

theorem total_pos {items : List α} (positive : ∀ x ∈ items, 0 < weight x) (some : items ≠ []) :
    0 < total weight items := by
  cases items with
  | nil => exact absurd rfl some
  | cons x rest =>
      have first := positive x List.mem_cons_self
      simp only [total, List.map_cons, List.sum_cons]
      omega

/-- A part of the end of a group that is within the overlap, and no longer part is. -/
structure Carried (weight : α → Nat) (overlap : Nat) (before carried : List α) : Prop where
  fits : total weight carried ≤ overlap
  longest : ∀ y ∈ before.getLast?, overlap < total weight carried + weight y

theorem carry_carried {earlier carried : List α} (fits : total weight carried ≤ overlap) :
    ∃ before, earlier.reverse ++ carried = before ++ (carry weight overlap earlier carried (total weight carried)).1 ∧
      (carry weight overlap earlier carried (total weight carried)).2 =
        total weight (carry weight overlap earlier carried (total weight carried)).1 ∧
      Carried weight overlap before (carry weight overlap earlier carried (total weight carried)).1 := by
  induction earlier generalizing carried with
  | nil => exact ⟨[], rfl, rfl, fits, by simp⟩
  | cons x earlier ih =>
      rw [carry]
      split
      · rename_i full
        refine ⟨earlier.reverse ++ [x], by simp, rfl, fits, ?_⟩
        intro y last
        obtain rfl : x = y := by simpa using last
        exact full
      · rename_i room
        have longer : total weight carried + weight x = total weight (x :: carried) := by
          rw [total, total, List.map_cons, List.sum_cons, Nat.add_comm]
        rw [longer] at room ⊢
        obtain ⟨before, split, load, most⟩ := @ih (x :: carried) (by omega)
        exact ⟨before, by rw [← split]; simp, load, most⟩

theorem carryOver_carried {current : List α} (positive : ∀ x ∈ current, 0 < weight x) :
    ∃ before, current = before ++ (carryOver weight overlap current).1 ∧
      (carryOver weight overlap current).2 = total weight (carryOver weight overlap current).1 ∧
      Carried weight overlap before (carryOver weight overlap current).1 := by
  rw [carryOver]
  split
  · rename_i none
    refine ⟨current, (List.append_nil current).symm, rfl, Nat.zero_le _, ?_⟩
    intro y last
    have some := positive y (List.mem_of_getLast? last)
    simp only [total, List.map_nil, List.sum_nil]
    omega
  · obtain ⟨before, split, load, most⟩ := @carry_carried α weight overlap current.reverse [] (Nat.zero_le _)
    rw [List.reverse_reverse, List.append_nil] at split
    exact ⟨before, split, load, most⟩

namespace Carried

variable {before carried : List α}

/-- All of a group is carried just if it is within the overlap. -/
theorem before_eq_nil (most : Carried weight overlap before carried) :
    before = [] ↔ total weight (before ++ carried) ≤ overlap := by
  rw [total_append]
  constructor
  · rintro rfl
    simpa [total] using most.fits
  · intro within
    by_contra some
    have long := most.longest _ (List.getLast?_eq_some_getLast some)
    have part := total_append weight before.dropLast [before.getLast some]
    rw [List.dropLast_append_getLast, total_singleton] at part
    omega

/-- The last item is carried just if it is within the overlap alone. -/
theorem carried_ne_nil (most : Carried weight overlap before carried) {y : α}
    (last : y ∈ (before ++ carried).getLast?) : carried ≠ [] ↔ weight y ≤ overlap := by
  constructor
  · intro some
    rw [List.getLast?_append_of_ne_nil _ some] at last
    obtain ⟨earlier, rfl⟩ := List.getLast?_eq_some_iff.mp last
    have fits := most.fits
    rw [total_append, total_singleton] at fits
    omega
  · rintro within rfl
    have long := most.longest y (by simpa using last)
    simp only [total, List.map_nil, List.sum_nil] at long
    omega

/-- A part of the end that is within the overlap is carried. -/
theorem suffix (most : Carried weight overlap before carried) {tail : List α} (ending : tail <:+ before ++ carried)
    (within : total weight tail ≤ overlap) : tail <:+ carried := by
  by_contra longer
  obtain ⟨other, split⟩ := ending
  obtain ⟨more, rfl, cut⟩ | ⟨more, rfl, cut⟩ := List.append_eq_append_iff.mp split
  · by_cases some : more = []
    · subst some
      exact longer (cut ▸ List.suffix_refl _)
    · have long := most.longest (more.getLast some)
        (by rw [List.getLast?_append_of_ne_nil _ some]; exact List.getLast?_eq_some_getLast some)
      have part := total_append weight more.dropLast [more.getLast some]
      rw [List.dropLast_append_getLast, total_singleton] at part
      rw [cut, total_append] at within
      omega
  · exact longer (cut ▸ List.suffix_append _ _)

end Carried

/-- The positions from `start` up to `stop`, which is left out. -/
structure Window where
  start : Nat
  stop : Nat
  deriving DecidableEq

def slice (items : List α) (w : Window) : List α := (items.take w.stop).drop w.start

/-- Every item of the window that comes after `fresh` fitted when it was added. -/
def Fitted (weight : α → Nat) (limit : Nat) (items : List α) (fresh : Nat) (w : Window) : Prop :=
  ∀ n x, fresh < n → n < w.stop → items[n]? = some x → total weight (slice items ⟨w.start, n⟩) + weight x ≤ limit

/-- `next` is the window after `w`: it begins with the longest part of the end of `w`
    that is within the overlap, and `w` was closed since the item after it did not fit.
    That item is added to what is carried without a look at the limit. -/
structure Follows (weight : α → Nat) (limit overlap : Nat) (items : List α) (w next : Window) : Prop where
  grows : w.stop < next.stop
  start : w.start ≤ next.start
  within : next.start ≤ w.stop
  fits : total weight (slice items ⟨next.start, w.stop⟩) ≤ overlap
  longest : ∀ i, w.start ≤ i → i < next.start → overlap < total weight (slice items ⟨i, w.stop⟩)
  bare : overlap = 0 → next.start = w.stop
  closes : ∃ x, items[w.stop]? = some x ∧ limit < total weight (slice items w) + weight x
  fitted : Fitted weight limit items w.stop next

variable {items : List α}

/-- The first fresh item is added without a look at the limit. -/
theorem fitted_first {start n : Nat} : Fitted weight limit items n ⟨start, n + 1⟩ :=
  fun _ _ above below => absurd below (Nat.not_lt.mpr above)

theorem slice_snoc {start n : Nat} {x : α} (here : items[n]? = some x) (start_le : start ≤ n) :
    slice items ⟨start, n + 1⟩ = slice items ⟨start, n⟩ ++ [x] := by
  have inside : n < items.length := (List.getElem?_eq_some_iff.mp here).1
  have short : start ≤ (items.take n).length := by
    rw [List.length_take]
    omega
  rw [slice, slice, List.take_add_one, here, Option.toList_some, List.drop_append_of_le_length short]

theorem slice_drop {start n : Nat} (k : Nat) :
    (slice items ⟨start, n⟩).drop k = slice items ⟨start + k, n⟩ := by
  rw [slice, slice, List.drop_drop]

theorem length_slice {start n : Nat} (inside : n ≤ items.length) :
    (slice items ⟨start, n⟩).length = n - start := by
  rw [slice, List.length_drop, List.length_take, Nat.min_eq_left inside]

theorem slice_ne_nil {start n : Nat} (inside : n ≤ items.length) (open_ : start < n) : slice items ⟨start, n⟩ ≠ [] := by
  apply List.ne_nil_of_length_pos
  rw [length_slice inside]
  omega

theorem mem_slice {w : Window} {x : α} (member : x ∈ slice items w) : x ∈ items :=
  List.mem_of_mem_take (List.mem_of_mem_drop member)

/-- The window of what is carried over from an open window. -/
theorem carried_window {start n : Nat} (positive : ∀ x ∈ items, 0 < weight x) (inside : n ≤ items.length)
    (open_ : start ≤ n) :
    ∃ next, start ≤ next ∧ next ≤ n ∧
      (carryOver weight overlap (slice items ⟨start, n⟩)).1 = slice items ⟨next, n⟩ ∧
      (carryOver weight overlap (slice items ⟨start, n⟩)).2 = total weight (slice items ⟨next, n⟩) ∧
      total weight (slice items ⟨next, n⟩) ≤ overlap ∧
      ∀ i, start ≤ i → i < next → overlap < total weight (slice items ⟨i, n⟩) := by
  obtain ⟨before, split, load, most⟩ :=
    @carryOver_carried α weight overlap (slice items ⟨start, n⟩) fun x member => positive x (mem_slice member)
  generalize (carryOver weight overlap (slice items ⟨start, n⟩)).1 = carried at split load most ⊢
  have lengths := congrArg List.length split
  rw [length_slice inside, List.length_append] at lengths
  have tail : slice items ⟨start + before.length, n⟩ = carried := by rw [← slice_drop, split, List.drop_left]
  refine ⟨start + before.length, by omega, by omega, tail.symm, tail ▸ load, tail ▸ most.fits, ?_⟩
  intro i first last
  by_contra short
  have ending : slice items ⟨i, n⟩ <:+ before ++ carried := by
    rw [← split, show i = start + (i - start) by omega, ← slice_drop]
    exact List.drop_suffix _ _
  have inCarried := (most.suffix ending (by omega)).length_le
  rw [length_slice inside] at inCarried
  omega

/-- From an open window on, the groups are windows that follow one another up to the end. -/
theorem groupsFrom_windows (positive : ∀ x ∈ items, 0 < weight x) {rest : List α} {start fresh n : Nat}
    (ahead : items.drop n = rest) (inside : n ≤ items.length) (open_ : start < n)
    (fitted : Fitted weight limit items fresh ⟨start, n⟩) :
    ∃ first more,
      groupsFrom weight limit overlap (slice items ⟨start, n⟩) (total weight (slice items ⟨start, n⟩)) rest =
        (first :: more).map (slice items) ∧
      List.IsChain (Follows weight limit overlap items) (first :: more) ∧ first.start = start ∧
      n ≤ first.stop ∧ Fitted weight limit items fresh first ∧
      ∀ w ∈ (first :: more).getLast?, w.stop = items.length := by
  induction rest generalizing start fresh n with
  | nil =>
      have atEnd : n = items.length := Nat.le_antisymm inside (List.drop_eq_nil_iff.mp ahead)
      refine ⟨⟨start, n⟩, [], ?_, List.isChain_singleton _, rfl, le_rfl, fitted, by simpa using atEnd⟩
      rw [groupsFrom, if_neg (slice_ne_nil inside open_)]
      rfl
  | cons x rest ih =>
      have here : items[n]? = Option.some x := by
        rw [← List.head?_drop, ahead]
        rfl
      have room : n < items.length := (List.getElem?_eq_some_iff.mp here).1
      have later : items.drop (n + 1) = rest := by rw [← List.tail_drop, ahead, List.tail_cons]
      have grown : ∀ {start}, start ≤ n →
          total weight (slice items ⟨start, n⟩) + weight x = total weight (slice items ⟨start, n + 1⟩) := by
        intro start le
        rw [slice_snoc here le, total_append, total_singleton]
      rw [groupsFrom]
      split
      · rename_i full
        obtain ⟨next, startLe, nextLe, carried, load, fits, longest⟩ :=
          @carried_window α weight overlap items start n positive inside (Nat.le_of_lt open_)
        -- What is carried and the item that did not fit make the window that is open now.
        obtain ⟨first, more, groups, chain, rfl, firstStop, firstFitted, atEnd⟩ :=
          ih later room (Nat.lt_succ_of_le nextLe) fitted_first
        refine ⟨⟨start, n⟩, first :: more, ?_, ?_, rfl, le_rfl, fitted, by simpa using atEnd⟩
        · simp only [carried, load]
          rw [← slice_snoc here nextLe, grown nextLe, groups]
          rfl
        · have bare : overlap = 0 → first.start = n := by
            intro none
            by_contra apart
            have some : slice items ⟨first.start, n⟩ ≠ [] := slice_ne_nil inside (by omega)
            have heavy := total_pos (fun y member => positive y (mem_slice member)) some
            omega
          exact chain.cons_cons ⟨firstStop, startLe, nextLe, fits, longest, bare, ⟨x, here, full.2⟩, firstFitted⟩
      · rename_i fit
        have grownFitted : Fitted weight limit items fresh ⟨start, n + 1⟩ := by
          intro m y above below there
          by_cases last : m = n
          · subst last
            obtain rfl := Option.some.inj (here.symm.trans there)
            exact Nat.not_lt.mp fun full => fit ⟨slice_ne_nil inside open_, full⟩
          · exact fitted m y above (Nat.lt_of_le_of_ne (Nat.le_of_lt_succ below) last) there
        obtain ⟨first, more, groups, chain, rfl, firstStop, firstFitted, atEnd⟩ :=
          ih later room (Nat.lt_succ_of_lt open_) grownFitted
        refine ⟨first, more, ?_, chain, rfl, by omega, firstFitted, atEnd⟩
        rw [← slice_snoc here (Nat.le_of_lt open_), grown (Nat.le_of_lt open_), groups]

/-- What is left of the windows when each loses the positions before `seen` that it
    repeats. -/
def freshItems (items : List α) : (seen : Nat) → List Window → List α
  | _, [] => []
  | seen, w :: later => (slice items w).drop (seen - w.start) ++ freshItems items w.stop later

/-- Windows from the first item to the last that follow one another. -/
structure Overlapping (weight : α → Nat) (limit overlap : Nat) (items : List α) (windows : List Window) : Prop where
  first : ∀ w ∈ windows.head?, w.start = 0 ∧ Fitted weight limit items 0 w
  last : ∀ w ∈ windows.getLast?, w.stop = items.length
  chain : List.IsChain (Follows weight limit overlap items) windows
  /-- Each window has a position that no earlier one has. -/
  new : ∀ earlier w later, windows = earlier ++ w :: later →
    ∃ i, w.start ≤ i ∧ i < w.stop ∧ ∀ v ∈ earlier, v.stop ≤ i
  whole : freshItems items 0 windows = items

theorem window_ext {v w : Window} (start : v.start = w.start) (stop : v.stop = w.stop) : v = w := by
  cases v
  cases w
  simp_all

namespace Follows

variable {v w next other : Window} {fresh : Nat}

theorem stop_lt (follows : Follows weight limit overlap items w next) : w.stop < items.length := by
  obtain ⟨x, here, -⟩ := follows.closes
  exact (List.getElem?_eq_some_iff.mp here).1

/-- No window that starts alike goes on where one was closed. -/
theorem not_fitted (follows : Follows weight limit overlap items w next) (start : v.start = w.start)
    (open_ : fresh < w.stop) (fitted : Fitted weight limit items fresh v) : ¬ w.stop < v.stop := by
  intro longer
  obtain ⟨x, here, full⟩ := follows.closes
  have fits := fitted w.stop x open_ longer here
  rw [start] at fits
  exact absurd full (Nat.not_lt.mpr fits)

/-- The longest part within the overlap is one. -/
theorem start_unique (first : Follows weight limit overlap items w next)
    (second : Follows weight limit overlap items w other) : next.start = other.start := by
  have one : ∀ {a b : Window}, Follows weight limit overlap items w a → Follows weight limit overlap items w b →
      ¬ a.start < b.start := by
    intro a b followsA followsB before
    exact absurd followsA.fits (Nat.not_le.mpr (followsB.longest a.start followsA.start before))
  exact Nat.le_antisymm (Nat.not_lt.mp (one second first)) (Nat.not_lt.mp (one first second))

end Follows

namespace Overlapping

variable {w : Window} {windows : List Window}

theorem stop_le (overlapping : Overlapping weight limit overlap items windows) :
    ∀ w ∈ windows, w.stop ≤ items.length := by
  intro w member
  obtain ⟨earlier, later, rfl⟩ := List.append_of_mem member
  cases later with
  | nil => exact (overlapping.last w (by simp)).le
  | cons next later =>
      have follows := (List.isChain_append_cons_cons.mp overlapping.chain).2.1
      exact Nat.le_of_lt follows.stop_lt

theorem ne_nil (overlapping : Overlapping weight limit overlap items windows) (some : items ≠ []) : windows ≠ [] := by
  rintro rfl
  exact some overlapping.whole.symm

/-- A window begins with the item at its start. -/
theorem opened (overlapping : Overlapping weight limit overlap items windows) (member : w ∈ windows) :
    ∃ x more, items[w.start]? = some x ∧ slice items w = x :: more := by
  obtain ⟨earlier, later, rfl⟩ := List.append_of_mem member
  obtain ⟨i, above, below, -⟩ := overlapping.new earlier w later rfl
  have inside : w.stop ≤ items.length := overlapping.stop_le w member
  have some : slice items w ≠ [] := slice_ne_nil inside (Nat.lt_of_le_of_lt above below)
  obtain ⟨x, more, split⟩ := List.exists_cons_of_ne_nil some
  refine ⟨x, more, ?_, split⟩
  have head : (slice items w).head? = items[w.start]? := by
    rw [slice, List.head?_drop, List.getElem?_take_of_lt (Nat.lt_of_le_of_lt above below)]
  rw [← head, split]
  rfl

theorem first_stop (overlapping : Overlapping weight limit overlap items (w :: windows)) : 0 < w.stop := by
  obtain ⟨i, -, below, -⟩ := overlapping.new [] w windows rfl
  omega

end Overlapping

/-- Where a window stops and where the next one starts is fixed by the weights. -/
theorem chain_unique {fresh : Nat} {v w : Window} {vs ws : List Window} (start : v.start = w.start)
    (freshV : fresh < v.stop) (freshW : fresh < w.stop) (fittedV : Fitted weight limit items fresh v)
    (fittedW : Fitted weight limit items fresh w)
    (chainV : List.IsChain (Follows weight limit overlap items) (v :: vs))
    (chainW : List.IsChain (Follows weight limit overlap items) (w :: ws))
    (lastV : ∀ u ∈ (v :: vs).getLast?, u.stop = items.length)
    (lastW : ∀ u ∈ (w :: ws).getLast?, u.stop = items.length) : v :: vs = w :: ws := by
  induction vs generalizing fresh v w ws with
  | nil =>
      have atEnd : v.stop = items.length := lastV v rfl
      cases ws with
      | nil =>
          have stop : v.stop = w.stop := atEnd.trans (lastW w rfl).symm
          rw [window_ext start stop]
      | cons u ws =>
          obtain ⟨follows, -⟩ := List.isChain_cons_cons.mp chainW
          exact absurd (atEnd ▸ follows.stop_lt) (follows.not_fitted start freshW fittedV)
  | cons v' vs ih =>
      obtain ⟨followsV, restV⟩ := List.isChain_cons_cons.mp chainV
      cases ws with
      | nil =>
          have atEnd : w.stop = items.length := lastW w rfl
          exact absurd (atEnd ▸ followsV.stop_lt) (followsV.not_fitted start.symm freshV fittedW)
      | cons w' ws =>
          obtain ⟨followsW, restW⟩ := List.isChain_cons_cons.mp chainW
          have stop : v.stop = w.stop := Nat.le_antisymm
            (Nat.not_lt.mp (followsW.not_fitted start freshW fittedV))
            (Nat.not_lt.mp (followsV.not_fitted start.symm freshV fittedW))
          obtain rfl := window_ext start stop
          have again := followsV.start_unique followsW
          have rest := ih again followsV.grows followsW.grows followsV.fitted followsW.fitted restV restW
            (by simpa using lastV) (by simpa using lastW)
          rw [rest]

/-- The windows are determined by the weights of the items, the limit and the overlap. -/
theorem Overlapping.unique {vs ws : List Window} (some : items ≠ [])
    (first : Overlapping weight limit overlap items vs) (second : Overlapping weight limit overlap items ws) :
    vs = ws := by
  obtain ⟨v, vs, rfl⟩ := List.exists_cons_of_ne_nil (first.ne_nil some)
  obtain ⟨w, ws, rfl⟩ := List.exists_cons_of_ne_nil (second.ne_nil some)
  obtain ⟨startV, fittedV⟩ := first.first v rfl
  obtain ⟨startW, fittedW⟩ := second.first w rfl
  exact chain_unique (startV.trans startW.symm) first.first_stop second.first_stop fittedV fittedW first.chain
    second.chain first.last second.last

theorem freshItems_chain {seen : Nat} {w : Window} {later : List Window} (start : w.start ≤ seen) (stop : seen ≤ w.stop)
    (chain : List.IsChain (Follows weight limit overlap items) (w :: later))
    (last : ∀ v ∈ (w :: later).getLast?, v.stop = items.length) :
    freshItems items seen (w :: later) = items.drop seen := by
  have part : (slice items w).drop (seen - w.start) = (items.take w.stop).drop seen := by
    rw [slice, List.drop_drop, Nat.add_sub_cancel' start]
  induction later generalizing seen w with
  | nil =>
      have atEnd : w.stop = items.length := last w rfl
      rw [freshItems, part, atEnd, List.take_length, freshItems, List.append_nil]
  | cons next later ih =>
      obtain ⟨follows, rest⟩ := List.isChain_cons_cons.mp chain
      have inside : w.stop ≤ items.length := by
        obtain ⟨x, here, -⟩ := follows.closes
        exact Nat.le_of_lt (List.getElem?_eq_some_iff.mp here).1
      have tail := ih follows.within (Nat.le_of_lt follows.grows) rest (by simpa using last)
        (by rw [slice, List.drop_drop, Nat.add_sub_cancel' follows.within])
      rw [freshItems, part, tail, ← List.drop_append_of_le_length, List.take_append_drop]
      rw [List.length_take, Nat.min_eq_left inside]
      exact stop

theorem stops_increase {w : Window} {later : List Window}
    (chain : List.IsChain (Follows weight limit overlap items) (w :: later)) :
    List.Pairwise (fun v u => v.stop < u.stop) (w :: later) := by
  apply List.isChain_iff_pairwise.mp
  exact chain.imp fun _ _ follows => follows.grows

theorem windows_filled {w : Window} {later : List Window}
    (chain : List.IsChain (Follows weight limit overlap items) (w :: later)) (filled : w.start < w.stop) :
    ∀ v ∈ w :: later, v.start < v.stop := by
  induction later generalizing w with
  | nil =>
      intro v member
      rw [List.mem_singleton.mp member]
      exact filled
  | cons next later ih =>
      obtain ⟨follows, rest⟩ := List.isChain_cons_cons.mp chain
      intro v member
      cases member with
      | head => exact filled
      | tail _ member => exact ih rest (follows.within.trans_lt follows.grows) v member

/-- The groups of a packing are overlapping windows. -/
theorem pack_windows (positive : ∀ x ∈ items, 0 < weight x) (some : items ≠ []) :
    ∃ windows, pack weight limit overlap items = windows.map (slice items) ∧
      Overlapping weight limit overlap items windows := by
  cases split : items with
  | nil => exact absurd split some
  | cons x rest =>
      obtain ⟨w, more, groups, chain, start, stop, fitted, atEnd⟩ :=
        @groupsFrom_windows α weight limit overlap (x :: rest) (split ▸ positive) rest 0 0 1 rfl (by simp) (by simp)
          fitted_first
      refine ⟨w :: more, ?_, by simpa using And.intro start fitted, atEnd, chain, ?_, ?_⟩
      · have first : slice (x :: rest) ⟨0, 1⟩ = [x] := rfl
        rw [pack_groupsFrom, groupsFrom, if_neg (by simp), ← groups, first, total_singleton, Nat.zero_add]
        rfl
      · intro earlier v later split
        have filled := windows_filled chain (by omega) v (by rw [split]; simp)
        have increase := stops_increase chain
        rw [split, List.pairwise_append] at increase
        refine ⟨v.stop - 1, by omega, by omega, ?_⟩
        intro u before
        have smaller := increase.2.2 u before v List.mem_cons_self
        omega
      · exact freshItems_chain (by omega) (Nat.zero_le _) chain atEnd

end Nipoto.Packing
