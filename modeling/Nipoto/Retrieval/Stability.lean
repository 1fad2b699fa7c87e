import Nipoto.Retrieval.Characters
import Nipoto.Retrieval.NormalForm
import Nipoto.Text.Interior

/-! # Texts that the character-level steps leave alone

Whether they do depends on the solids and on where these are separated, not on
what separates them. A second run of `normalize` returns its input only if its
character-level steps do, since the gap steps keep every solid.
-/

namespace Nipoto.Normalize

open Text Text.Regex Text.Gaps

/-- The characters of a text that are not separators. -/
def solids (t : Str) : Str := t.filter fun c => !isSep c

theorem solids_append (s t : Str) : solids (s ++ t) = solids s ++ solids t := List.filter_append s t

theorem solids_gap {g : Str} (gap : IsGap isSep g) : solids g = [] := by
  rw [solids, List.filter_eq_nil_iff]
  intro c member
  simp [gap c member]

theorem solids_render {cs : List (Cell Char)} (proper : Proper isSep cs) {last : Str}
    (gapEnd : IsGap isSep last) : solids (render cs last) = cs.map Prod.snd := filter_render proper gapEnd

/-- The gap steps keep every solid in its place. -/
theorem solids_gapSteps (t : Str) : solids (gapSteps t) = solids t := by
  induction t using text_cases isSep with
  | gap t gap =>
      rw [gapSteps_blank gap, solids_gap gap]
      rfl
  | cells g x cs last proper gapEnd =>
      have whole := solids_render (final_proper proper) (show IsGap isSep [] by simp [IsGap])
      rw [render, List.nil_append, List.map_cons, mapCells_solids] at whole
      rw [gapSteps_render proper gapEnd, whole, solids_render proper gapEnd]
      rfl

section Stability

variable (nfkc : Nfkc)

/-- Only separators that take part in no composition, and no marks. -/
structure Plain (t : Str) : Prop where
  separators : ∀ c ∈ t, isSep c = true → c ∈ plainSeparators
  noMark : ∀ c ∈ t, isDiacritic c = false

theorem Plain.append {s t : Str} (h : Plain (s ++ t)) : Plain s ∧ Plain t := by
  refine ⟨⟨?_, ?_⟩, ?_, ?_⟩
  · exact fun c member => h.separators c (List.mem_append_left t member)
  · exact fun c member => h.noMark c (List.mem_append_left t member)
  · exact fun c member => h.separators c (List.mem_append_right s member)
  · exact fun c member => h.noMark c (List.mem_append_right s member)

theorem weightOf_solids (t : Str) : nfkc.weightOf (solids t) ≤ nfkc.weightOf t := by
  induction t with
  | nil => exact le_rfl
  | cons c t ih =>
      cases separator : isSep c with
      | true =>
          have same : solids (c :: t) = solids t := by simp [solids, separator]
          rw [same, Nfkc.weightOf_cons]
          omega
      | false =>
          have same : solids (c :: t) = c :: solids t := by simp [solids, separator]
          rw [same, Nfkc.weightOf_cons, Nfkc.weightOf_cons]
          omega

/-- Where nothing is lost there were no separators. -/
theorem solids_eq_of_weight {t : Str} (full : nfkc.weightOf t ≤ nfkc.weightOf (solids t)) : solids t = t := by
  induction t with
  | nil => rfl
  | cons c t ih =>
      have rest := weightOf_solids nfkc t
      have positive := nfkc.weight_pos c
      cases separator : isSep c with
      | true =>
          have same : solids (c :: t) = solids t := by simp [solids, separator]
          rw [same, Nfkc.weightOf_cons] at full
          omega
      | false =>
          have same : solids (c :: t) = c :: solids t := by simp [solids, separator]
          rw [same, Nfkc.weightOf_cons, Nfkc.weightOf_cons] at full
          rw [same, ih (by omega)]

theorem solids_eq_self {t : Str} (solid : ∀ c ∈ t, isSep c = false) : solids t = t :=
  List.filter_eq_self.mpr fun c member => by simp [solid c member]

theorem solids_separator {c : Char} (separator : isSep c = true) (t : Str) : solids (c :: t) = solids t := by
  simp [solids, separator]

/-- The solids of each part can only lose weight. -/
theorem weightOf_solids_steps {t : Str} (plain : Plain t) :
    nfkc.weightOf (solids (characterSteps nfkc.run t)) ≤ nfkc.weightOf (solids t) := by
  induction t using split_induction (p := isSep) with
  | whole t solid =>
      have shrunk := weightOf_solids nfkc (characterSteps nfkc.run t)
      have folded := nfkc.weightOf_characterSteps t
      rw [solids_eq_self solid]
      omega
  | parted a c b _ separator left right =>
      have inert := inert_separator (plain.separators c (by simp) separator)
      have rest := (plain.append.2.append (s := [c])).2
      have first := left plain.append.1
      have second := right b le_rfl rest
      rw [nfkc.characterSteps_plain inert.1 a rest.noMark, inert.2]
      simp only [solids_append, List.singleton_append, solids_separator separator,
        Nfkc.weightOf_append]
      omega

/-- The character-level steps change a plain text only by changing its solids. -/
theorem stable_of_solids {t : Str} (plain : Plain t)
    (same : solids (characterSteps nfkc.run t) = solids t) : characterSteps nfkc.run t = t := by
  induction t using split_induction (p := isSep) with
  | whole t solid =>
      rw [solids_eq_self solid] at same
      have full : solids (characterSteps nfkc.run t) = characterSteps nfkc.run t := by
        apply solids_eq_of_weight nfkc
        rw [same]
        exact nfkc.weightOf_characterSteps t
      rw [← full, same]
  | parted a c b _ separator left right =>
      have inert := inert_separator (plain.separators c (by simp) separator)
      have rest := (plain.append.2.append (s := [c])).2
      have lighter := weightOf_solids_steps nfkc plain.append.1
      have lighterRest := weightOf_solids_steps nfkc rest
      rw [nfkc.characterSteps_plain inert.1 a rest.noMark, inert.2] at same ⊢
      simp only [solids_append, List.singleton_append, solids_separator separator] at same
      have total := congrArg nfkc.weightOf same
      rw [Nfkc.weightOf_append, Nfkc.weightOf_append] at total
      obtain ⟨sameLeft, sameRight⟩ := nfkc.append_inj_of_weight same (by omega)
      rw [left plain.append.1 sameLeft, right b le_rfl rest sameRight]
      rfl

def Fixed (t : Str) : Prop := characterSteps nfkc.run t = t

theorem fixed_nil : Fixed nfkc [] := nfkc.characterSteps_nil

theorem fixed_separators {g b : Str} (filled : g ≠ []) (plain : ∀ c ∈ g, c ∈ plainSeparators)
    (noMark : ∀ c ∈ b, isDiacritic c = false) (a : Str) :
    Fixed nfkc (a ++ (g ++ b)) ↔ Fixed nfkc a ∧ Fixed nfkc b := by
  induction g generalizing a with
  | nil => exact absurd rfl filled
  | cons c g ih =>
      have inert := inert_separator (plain c List.mem_cons_self)
      have rest := fun d member => plain d (List.mem_cons_of_mem c member)
      cases g with
      | nil => exact nfkc.stable_split inert a noMark
      | cons d g =>
          have noMark' : ∀ e ∈ d :: g ++ b, isDiacritic e = false := by
            intro e member
            rcases List.mem_append.mp member with inGap | inRest
            · exact plain_no_mark e (List.mem_append_right _ (rest e inGap))
            · exact noMark e inRest
          have tail := ih (by simp) rest []
          rw [List.nil_append] at tail
          apply (nfkc.stable_split inert a noMark').trans
          exact and_congr_right fun _ => tail.trans (and_iff_right (fixed_nil nfkc))

/-- A gap, or an inert character before it, parts a text for the character-level steps. -/
theorem fixed_split {a g b : Str} (plain : ∀ c ∈ g, c ∈ plainSeparators)
    (parts : g ≠ [] ∨ ∃ c ∈ a.getLast?, Inert c) (noMark : ∀ c ∈ b, isDiacritic c = false) :
    Fixed nfkc (a ++ (g ++ b)) ↔ Fixed nfkc a ∧ Fixed nfkc b := by
  cases g with
  | cons c g => exact fixed_separators nfkc (by simp) plain noMark a
  | nil =>
      obtain ⟨c, atEnd, inert⟩ := parts.resolve_left (by simp)
      obtain ⟨a, rfl⟩ : ∃ t, a = t ++ [c] := by
        obtain ⟨filled, rfl⟩ := List.mem_getLast?_eq_getLast atEnd
        exact ⟨a.dropLast, (List.dropLast_concat_getLast filled).symm⟩
      have whole := nfkc.stable_split inert a noMark
      have front := nfkc.stable_split inert a (b := []) (by simp)
      rw [nfkc.characterSteps_nil, and_iff_left rfl] at front
      rw [List.nil_append, List.append_assoc]
      exact whole.trans (and_congr_left fun _ => front.symm)

theorem render_noMark {h : Pass Char} (plain : ∀ l g r, IsGap isSep g → ∀ c ∈ h l g r, c ∈ plainSeparators)
    {cs : List (Cell Char)} (proper : Proper isSep cs) (noMark : ∀ c ∈ cs, isDiacritic c.2 = false)
    (run : Str) : ∀ c ∈ render (mapCells isBlock h run cs) [], isDiacritic c = false := by
  intro a member
  obtain ⟨c, inCells, inGap | rfl⟩ := (mem_render.mp member).resolve_right (by simp)
  · obtain ⟨d, old, _, l, r, gap⟩ := mem_mapCells isBlock inCells
    rw [gap] at inGap
    exact plain_no_mark a (List.mem_append_right _ (plain l d.1 r (proper d old).1 a inGap))
  · obtain ⟨d, old, same, _⟩ := mem_mapCells isBlock inCells
    exact same ▸ noMark d old

theorem prefix_inert_end {p : Str} (hp : p ∈ prefixes) : ∃ c ∈ p.getLast?, Inert c := by
  refine ⟨'ی', ?_, by decide, by decide⟩
  revert p
  decide

/-- Two passes that separate the same solids, apart from the ends of prefixes, leave
    texts that are stable together. -/
theorem fixed_cells {h k : Pass Char}
    (plainH : ∀ l g r, IsGap isSep g → ∀ c ∈ h l g r, c ∈ plainSeparators)
    (plainK : ∀ l g r, IsGap isSep g → ∀ c ∈ k l g r, c ∈ plainSeparators)
    (same : ∀ l g r, (h l g r = [] ↔ k l g r = []) ∨ l ∈ prefixes)
    {cs : List (Cell Char)} (proper : Proper isSep cs) (noMark : ∀ c ∈ cs, isDiacritic c.2 = false)
    {run a : Str} (ends : ∀ c ∈ run.getLast?, c ∈ a.getLast?) :
    Fixed nfkc (a ++ render (mapCells isBlock h run cs) []) ↔
      Fixed nfkc (a ++ render (mapCells isBlock k run cs) []) := by
  induction cs generalizing run a with
  | nil => rfl
  | cons c cs ih =>
      obtain ⟨g, x⟩ := c
      have gap := (proper.head isSep).1
      have rest := proper.tail isSep
      have noMark' : ∀ c ∈ cs, isDiacritic c.2 = false := fun c member => noMark c (List.mem_cons_of_mem _ member)
      have runEnd := leftStep_end isBlock run g x
      have markFree : ∀ {f : Pass Char}, (∀ l g r, IsGap isSep g → ∀ c ∈ f l g r, c ∈ plainSeparators) →
          ∀ c ∈ x :: render (mapCells isBlock f (leftStep isBlock run g x) cs) [],
            isDiacritic c = false := by
        intro f plain c member
        rcases List.mem_cons.mp member with rfl | later
        · exact noMark _ List.mem_cons_self
        · exact render_noMark plain rest noMark' _ c later
      rw [mapCells, mapCells, render, render]
      by_cases apart : (h run g (rightRun isBlock ((g, x) :: cs)) ≠ [] ∨ ∃ c ∈ a.getLast?, Inert c) ∧
          (k run g (rightRun isBlock ((g, x) :: cs)) ≠ [] ∨ ∃ c ∈ a.getLast?, Inert c)
      · have tail := @ih rest noMark' (leftStep isBlock run g x) [x] (fun c atEnd => by simp [runEnd c atEnd])
        rw [fixed_split nfkc (plainH _ _ _ gap) apart.1 (markFree plainH),
          fixed_split nfkc (plainK _ _ _ gap) apart.2 (markFree plainK)]
        exact and_congr_right fun _ => tail
      · have joined : h run g (rightRun isBlock ((g, x) :: cs)) = [] ∧
            k run g (rightRun isBlock ((g, x) :: cs)) = [] := by
          rcases same run g (rightRun isBlock ((g, x) :: cs)) with both | listed
          · by_cases empty : h run g (rightRun isBlock ((g, x) :: cs)) = []
            · exact ⟨empty, both.mp empty⟩
            · exact absurd ⟨.inl empty, .inl (both.not.mp empty)⟩ apart
          · obtain ⟨c, atEnd, inert⟩ := prefix_inert_end listed
            exact absurd ⟨.inr ⟨c, ends c atEnd, inert⟩, .inr ⟨c, ends c atEnd, inert⟩⟩ apart
        have tail := @ih rest noMark' (leftStep isBlock run g x) (a ++ [x])
          (fun c atEnd => by simp [runEnd c atEnd])
        rw [joined.1, joined.2]
        simpa using tail

end Stability

end Nipoto.Normalize
