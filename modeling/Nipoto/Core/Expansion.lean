import Nipoto.General.Json
import Nipoto.Text.Regex

/-! # References to the environment

`expand_env` of app/core/policy.py on the trees that YAML documents are. After
the expansion a text has a reference where a dollar sign and a brace have met.
-/

namespace Nipoto.Core

open Text Text.Regex

/-- What `yaml.safe_load` can return, but for binary data and sets; the keys of the mappings here are texts. -/
inductive Yaml where
  | null
  | bool (b : Bool)
  | int (n : Int)
  | float (value : Number)
  /-- A date or a time. -/
  | date (text : Str)
  | str (text : Str)
  | seq (items : List Yaml)
  | map (entries : List (Str × Yaml))

abbrev Env := Str → Option Str

/-- `[A-Z0-9_]`. -/
def isNameChar (c : Char) : Bool := c.isUpper || c.isDigit || c == '_'

/-- `\$\{([A-Z0-9_]+)\}`. -/
def envRef : Pattern := all [literal ['$', '{'], .group 1 (.many 1 none isNameChar), .one (· == '}')]

/-- `_ENV_REF.fullmatch`; from one place there is at most one match. -/
def fullReference (text : Str) : Option Str :=
  match envRef.matchAt [] text with
  | some d => if d.rest = [] then some (d.group 1) else none
  | none => none

/-- `os.environ.get(name, "")`. -/
def valueOf (env : Env) (d : Cursor) : Str := (env (d.group 1)).getD []

def expandText (env : Env) (text : Str) : Yaml :=
  match fullReference text with
  | some name =>
      match env name with
      | some value => if value = [] then .null else .str value
      | none => .null
  | none => .str (sub envRef (valueOf env) text)

mutual
def expandEnv (env : Env) : Yaml → Yaml
  | .str text => expandText env text
  | .map entries => .map (expandEntries env entries)
  | .seq items => .seq (expandItems env items)
  | .null => .null
  | .bool b => .bool b
  | .int n => .int n
  | .float value => .float value
  | .date text => .date text

def expandItems (env : Env) : List Yaml → List Yaml
  | [] => []
  | item :: rest => expandEnv env item :: expandItems env rest

def expandEntries (env : Env) : List (Str × Yaml) → List (Str × Yaml)
  | [] => []
  | (key, item) :: rest => (key, expandEnv env item) :: expandEntries env rest
end

mutual
/-- Some key or some text of a tree. -/
def Yaml.Any (key text : Str → Prop) : Yaml → Prop
  | .str s => text s
  | .map entries => AnyEntry key text entries
  | .seq items => AnyItem key text items
  | .null => False
  | .bool _ => False
  | .int _ => False
  | .float _ => False
  | .date _ => False

def AnyItem (key text : Str → Prop) : List Yaml → Prop
  | [] => False
  | item :: rest => item.Any key text ∨ AnyItem key text rest

def AnyEntry (key text : Str → Prop) : List (Str × Yaml) → Prop
  | [] => False
  | (name, item) :: rest => key name ∨ item.Any key text ∨ AnyEntry key text rest
end

/-- A text with a `${...}` in it. -/
def HasReference (text : Str) : Prop := ∃ a x b, text = a ++ '$' :: '{' :: (x ++ '}' :: b)

/-- The pieces that a substitution puts together: the characters of the text, and what
    stands for each match. -/
def piecesFrom (pattern : Pattern) (repl : Cursor → Str) : Nat → Str → Str → List Str
  | _, _, [] => []
  | skip + 1, before, x :: rest => piecesFrom pattern repl skip (x :: before) rest
  | 0, before, x :: rest =>
      match pattern.matchAt before (x :: rest) with
      | none => [x] :: piecesFrom pattern repl 0 (x :: before) rest
      | some d =>
          match (x :: rest).length - d.rest.length with
          | 0 => [x] :: piecesFrom pattern repl 0 (x :: before) rest
          | width + 1 => repl d :: piecesFrom pattern repl width (x :: before) rest

/-- A text cut at its references: single characters and the values of the variables. -/
def pieces (env : Env) (text : Str) : List Str := piecesFrom envRef (valueOf env) 0 [] text

/-- A piece that ends with a dollar sign and one that begins with a brace meet, with nothing
    but empty values between them, and the brace is closed later. -/
def Meeting (pieces : List Str) : Prop :=
  ∃ a x e y b, pieces = a ++ x :: (e ++ y :: b) ∧ x.getLast? = some '$' ∧ (∀ value ∈ e, value = []) ∧
    ∃ more, y = '{' :: more ∧ '}' ∈ more ++ b.flatten

theorem subFrom_pieces (pattern : Pattern) (repl : Cursor → Str) (skip : Nat) (before rest : Str) :
    subFrom pattern repl skip before rest = (piecesFrom pattern repl skip before rest).flatten := by
  fun_induction piecesFrom pattern repl skip before rest <;> simp_all [subFrom]

theorem mem_pieces {pattern : Pattern} {repl : Cursor → Str} {skip : Nat} {before rest piece : Str}
    (member : piece ∈ piecesFrom pattern repl skip before rest) : (∃ c, piece = [c]) ∨ ∃ d, piece = repl d := by
  fun_induction piecesFrom pattern repl skip before rest with
  | case1 => exact absurd member List.not_mem_nil
  | case2 skip before x rest ih => exact ih member
  | case3 before x rest none ih | case4 before x rest d found width ih =>
      rcases List.mem_cons.mp member with rfl | later
      · exact .inl ⟨x, rfl⟩
      · exact ih later
  | case5 before x rest d found width wide ih =>
      rcases List.mem_cons.mp member with rfl | later
      · exact .inr ⟨d, rfl⟩
      · exact ih later

theorem flatten_head {q : Char} {chunks : List Str} {rest : Str} (split : chunks.flatten = q :: rest) :
    ∃ e y b more, chunks = e ++ y :: b ∧ (∀ value ∈ e, value = []) ∧ y = q :: more ∧ rest = more ++ b.flatten := by
  induction chunks with
  | nil => exact absurd split (by simp)
  | cons c chunks ih =>
      cases c with
      | nil =>
          obtain ⟨e, y, b, more, rfl, empty, first, later⟩ := ih split
          exact ⟨[] :: e, y, b, more, rfl, List.forall_mem_cons.mpr ⟨rfl, empty⟩, first, later⟩
      | cons d c =>
          obtain ⟨rfl, rfl⟩ := List.cons.inj split
          exact ⟨[], d :: c, chunks, c, rfl, by simp, rfl, rfl⟩

/-- Two neighbouring characters that stand in no chunk together come from two chunks with
    nothing between them. -/
theorem flatten_pair {p q : Char} {chunks : List Str} (within : ∀ c ∈ chunks, ¬ [p, q] <:+: c) {front back : Str}
    (split : chunks.flatten = front ++ p :: q :: back) :
    ∃ a x e y b, chunks = a ++ x :: (e ++ y :: b) ∧ x.getLast? = some p ∧ (∀ value ∈ e, value = []) ∧
      ∃ more, y = q :: more ∧ back = more ++ b.flatten := by
  induction chunks generalizing front with
  | nil => exact absurd split (by simp)
  | cons c chunks ih =>
      have later := fun d member => within d (List.mem_cons_of_mem c member)
      have onward : ∀ {front : Str}, chunks.flatten = front ++ p :: q :: back →
          ∃ a x e y b, c :: chunks = a ++ x :: (e ++ y :: b) ∧ x.getLast? = some p ∧ (∀ value ∈ e, value = []) ∧
            ∃ more, y = q :: more ∧ back = more ++ b.flatten := by
        intro front rest
        obtain ⟨a, x, e, y, b, rfl, found⟩ := ih later rest
        exact ⟨c :: a, x, e, y, b, rfl, found⟩
      rw [List.flatten_cons] at split
      rcases List.append_eq_append_iff.mp split with ⟨m, rfl, rest⟩ | ⟨m, rfl, rest⟩
      · exact onward rest
      · cases m with
        | nil => exact @onward [] rest.symm
        | cons r m =>
            obtain ⟨rfl, next⟩ := List.cons.inj rest
            cases m with
            | nil =>
                obtain ⟨e, y, b, more, rfl, empty, first, after⟩ := flatten_head next.symm
                exact ⟨[], front ++ [p], e, y, b, rfl, by simp, empty, more, first, after⟩
            | cons r m =>
                obtain ⟨rfl, -⟩ := List.cons.inj next
                exact absurd ⟨front, m, by simp⟩ (within _ List.mem_cons_self)

theorem hasReference_iff {text : Str} : HasReference text ↔ ∃ a b, text = a ++ '$' :: '{' :: b ∧ '}' ∈ b := by
  constructor
  · rintro ⟨a, x, b, rfl⟩
    exact ⟨a, x ++ '}' :: b, rfl, by simp⟩
  · rintro ⟨a, b, rfl, closed⟩
    obtain ⟨x, rest, rfl⟩ := List.append_of_mem closed
    exact ⟨a, x, rest, rfl⟩

theorem hasReference_flatten {chunks : List Str} (within : ∀ c ∈ chunks, ¬ ['$', '{'] <:+: c) :
    HasReference chunks.flatten ↔ Meeting chunks := by
  rw [hasReference_iff]
  constructor
  · rintro ⟨front, back, split, closed⟩
    obtain ⟨a, x, e, y, b, rfl, last, empty, more, first, rfl⟩ := flatten_pair within split
    exact ⟨a, x, e, y, b, rfl, last, empty, more, first, closed⟩
  · rintro ⟨a, x, e, y, b, rfl, last, empty, more, rfl, closed⟩
    obtain ⟨x, rfl⟩ := List.getLast?_eq_some_iff.mp last
    have gone : e.flatten = [] := List.flatten_eq_nil_iff.mpr empty
    exact ⟨a.flatten ++ x, more ++ b.flatten, by simp [gone], closed⟩

/-- No value brings a dollar sign and a brace along together. -/
def Harmless (env : Env) : Prop := ∀ name value, env name = some value → ¬ ['$', '{'] <:+: value

theorem short_piece (c : Char) : ¬ ['$', '{'] <:+: [c] := by
  intro inside
  exact absurd inside.length_le (by simp)

variable {env : Env}

theorem valueOf_harmless (harmless : Harmless env) (d : Cursor) : ¬ ['$', '{'] <:+: valueOf env d := by
  rw [valueOf]
  cases found : env (d.group 1) with
  | none => simp
  | some value => exact harmless _ value found

theorem pieces_harmless (harmless : Harmless env) (text : Str) : ∀ piece ∈ pieces env text, ¬ ['$', '{'] <:+: piece := by
  intro piece member
  rcases mem_pieces member with ⟨c, rfl⟩ | ⟨d, rfl⟩
  · exact short_piece c
  · exact valueOf_harmless harmless d

/-- The two rules give the same text but for a whole reference without a value. -/
theorem expandText_any (text : Str) {key content : Str → Prop} (empty : ¬ content []) :
    (expandText env text).Any key content ↔ content (sub envRef (valueOf env) text) := by
  have whole : ∀ name, fullReference text = some name → sub envRef (valueOf env) text = (env name).getD [] := by
    intro name full
    unfold fullReference at full
    cases found : envRef.matchAt [] text with
    | none => simp [found] at full
    | some d =>
        simp only [found, Option.ite_none_right_eq_some, Option.some.injEq] at full
        obtain ⟨ended, rfl⟩ := full
        have consumed : text ≠ [] := by
          rintro rfl
          cases found
        rw [← List.append_nil text] at found
        have replaced : subFrom envRef (valueOf env) 0 [] (text ++ []) = valueOf env d ++ _ :=
          subFrom_of_some consumed found ended
        simpa [sub, valueOf] using replaced
  unfold expandText
  cases full : fullReference text with
  | none => rfl
  | some name =>
      rw [whole name full]
      dsimp only
      cases env name with
      | none => exact iff_of_false not_false empty
      | some value =>
          by_cases unset : value = []
          · simpa [Yaml.Any, unset] using empty
          · simp [Yaml.Any, unset]

theorem any_expandText (harmless : Harmless env) (text : Str) :
    (expandText env text).Any HasReference HasReference ↔ Meeting (pieces env text) := by
  have empty : ¬ HasReference [] := by
    rintro ⟨a, x, b, same⟩
    exact absurd same (by simp)
  rw [expandText_any text empty, ← hasReference_flatten (pieces_harmless harmless text), sub, subFrom_pieces]
  rfl

mutual
/-- A tree keeps a reference in a name, or where pieces of a text meet. -/
theorem any_expandEnv (harmless : Harmless env) : ∀ d : Yaml, (expandEnv env d).Any HasReference HasReference ↔
    d.Any HasReference fun text => Meeting (pieces env text)
  | .str text => any_expandText harmless text
  | .map entries => any_expandEntries harmless entries
  | .seq items => any_expandItems harmless items
  | .null | .bool _ | .int _ | .float _ | .date _ => Iff.rfl

theorem any_expandItems (harmless : Harmless env) : ∀ items : List Yaml,
    AnyItem HasReference HasReference (expandItems env items) ↔
      AnyItem HasReference (fun text => Meeting (pieces env text)) items
  | [] => Iff.rfl
  | item :: rest => or_congr (any_expandEnv harmless item) (any_expandItems harmless rest)

theorem any_expandEntries (harmless : Harmless env) : ∀ entries : List (Str × Yaml),
    AnyEntry HasReference HasReference (expandEntries env entries) ↔
      AnyEntry HasReference (fun text => Meeting (pieces env text)) entries
  | [] => Iff.rfl
  | (_, item) :: rest => or_congr Iff.rfl (or_congr (any_expandEnv harmless item) (any_expandEntries harmless rest))
end

end Nipoto.Core
