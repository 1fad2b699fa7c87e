import Nipoto.General.Dict
import Nipoto.Retrieval.Stability

/-! # What normalisation does to a text besides its spacing

Every character is deleted, replaced or kept on its own. Apart from that only
white space and half-spaces change.
-/

namespace Nipoto.Normalize

open Text

/-- A listed invisible character, the thousands separator, or a mark. -/
def IsDeleted (c : Char) : Prop :=
  c ∈ invisible.map Prod.fst ∨ c = '\u066c' ∨ (0x064B ≤ c.toNat ∧ c.toNat ≤ 0x065F) ∨ c.toNat = 0x0670 ∨
    (0x06D6 ≤ c.toNat ∧ c.toNat ≤ 0x06ED)

instance : DecidablePred IsDeleted := fun c => by unfold IsDeleted; infer_instance

def editChar (c : Char) : Str :=
  if IsDeleted c then [] else ((letters ++ digits).lookup c).getD [c]

def edited (t : Str) : Str := t.flatMap editChar

theorem isDiacritic_iff (c : Char) :
    isDiacritic c = true ↔ (0x064B ≤ c.toNat ∧ c.toNat ≤ 0x065F) ∨ c.toNat = 0x0670 ∨
      (0x06D6 ≤ c.toNat ∧ c.toNat ≤ 0x06ED) := by
  simp [isDiacritic, or_assoc]

theorem translate_single (table : List (Char × Str)) (c : Char) :
    translate table [c] = (table.lookup c).getD [c] := by simp [translate]

theorem foldChar_of_lookup {c : Char} {s : Str} (found : invisible.lookup c = some s) :
    foldChar c = [] ∧ IsDeleted c := by
  have known := Dict.mem_of_lookup found
  have gone : s = [] := (by decide : ∀ entry ∈ invisible, entry.2 = []) _ known
  refine ⟨?_, .inl (List.mem_map_of_mem (f := Prod.fst) known)⟩
  rw [foldChar, translate_single, found, Option.getD_some, gone]
  rfl

/-- The three tables and the deletion of marks are one edit of each character. -/
theorem foldChar_eq (c : Char) : foldChar c = editChar c := by
  rw [editChar]
  cases hidden : invisible.lookup c with
  | some s =>
      obtain ⟨gone, deleted⟩ := foldChar_of_lookup hidden
      rw [if_pos deleted, gone]
  | none =>
      rw [foldChar, translate_single invisible, hidden, Option.getD_none, translate_single letters,
        List.lookup_append]
      cases letter : letters.lookup c with
      | some s =>
          have entry := (by decide : ∀ entry ∈ letters,
            ((translate digits entry.2).filter fun d => !isDiacritic d) = entry.2 ∧ ¬ IsDeleted entry.1)
              _ (Dict.mem_of_lookup letter)
          rw [if_neg entry.2]
          exact entry.1
      | none =>
          rw [Option.getD_none, translate_single, Option.none_or]
          cases digit : digits.lookup c with
          | some s =>
              exact (by decide : ∀ entry ∈ digits, (entry.2.filter fun d => !isDiacritic d) =
                if IsDeleted entry.1 then [] else entry.2) _ (Dict.mem_of_lookup digit)
          | none =>
              have notHidden : c ∉ invisible.map Prod.fst := by
                intro listed
                obtain ⟨entry, known, rfl⟩ := List.mem_map.mp listed
                exact absurd (List.lookup_eq_none_iff.mp hidden entry known) (by simp)
              have notSeparator : c ≠ '\u066c' := by
                rintro rfl
                exact absurd digit (by decide)
              have deleted : IsDeleted c ↔ isDiacritic c = true := by
                simp [IsDeleted, notHidden, notSeparator, isDiacritic_iff]
              simp only [deleted, Option.getD_none]
              cases mark : isDiacritic c <;> simp [mark]

/-- White space is in no table and is no mark. -/
theorem foldChar_space {c : Char} (space : isSpace c = true) : foldChar c = [c] := by
  have unlisted : ∀ entry ∈ invisible ++ (letters ++ digits), isSpace entry.1 = false := by decide
  have other : ∀ entry ∈ invisible ++ (letters ++ digits), c ≠ entry.1 := by
    rintro entry member rfl
    rw [unlisted entry member] at space
    exact absurd space (by simp)
  have kept : ¬ IsDeleted c := by
    rintro (listed | separator | mark)
    · obtain ⟨entry, member, rfl⟩ := List.mem_map.mp listed
      exact other entry (List.mem_append_left _ member) rfl
    · exact other ('\u066c', []) (by decide) separator
    · simp only [isSpace, Bool.or_eq_true, Bool.and_eq_true, decide_eq_true_eq, beq_iff_eq] at space
      omega
  have unread : (letters ++ digits).lookup c = none := by
    rw [List.lookup_eq_none_iff]
    intro entry member
    simpa using other entry (List.mem_append_right _ member)
  rw [foldChar_eq, editChar, if_neg kept, unread]
  rfl

theorem characterSteps_edited (nfkc : Str → Str) (t : Str) : characterSteps nfkc t = edited (nfkc t) := by
  rw [characterSteps_eq, edited, funext foldChar_eq]

/-- Beyond the edits of single characters only white space and half-spaces change. -/
theorem normalize_solids (nfkc : Str → Str) (empty : nfkc [] = []) (t : Str) :
    solids (normalize nfkc t) = solids (edited (nfkc t)) := by
  rw [normalize]
  split
  · rename_i nothing
    rw [nothing, empty]
    rfl
  · rw [characterSteps_edited]
    exact solids_gapSteps (edited (nfkc t))

/-- The percent sign is kept. NFKC leaves this text alone. -/
theorem normalize_solids_percent :
    (fun t => t) [] = ([] : Str) ∧
      solids (normalize (fun t => t) "سود ۱۲٪ ماهانه".toList) = solids (edited "سود ۱۲٪ ماهانه".toList) :=
  ⟨rfl, normalize_solids (fun t => t) rfl "سود ۱۲٪ ماهانه".toList⟩

end Nipoto.Normalize
