import Mathlib.Data.Rat.Defs

/-! # JSON values

What `json.loads` can return. Names in an object are distinct.
-/

namespace Nipoto

/-- A float. -/
inductive Number where
  | finite (value : Rat)
  | infinite (negative : Bool)
  | nan
  deriving Repr, DecidableEq

inductive Json where
  | null
  | bool (b : Bool)
  | int (n : Int)
  | float (value : Number)
  | str (s : String)
  | arr (items : List Json)
  | obj (fields : List (String × Json))
  deriving Repr, Inhabited

namespace Json

/-- `bool(value)`. -/
def truthy : Json → Bool
  | .null => false
  | .bool b => b
  | .int n => n ≠ 0
  | .float value => value ≠ .finite 0
  | .str s => s ≠ ""
  | .arr items => !items.isEmpty
  | .obj fields => !fields.isEmpty

mutual
/-- `json.dumps(value, allow_nan=False)` does not raise. -/
def finite : Json → Bool
  | .float (.finite _) => true
  | .float _ => false
  | .arr items => finiteItems items
  | .obj fields => finiteFields fields
  | _ => true

def finiteItems : List Json → Bool
  | [] => true
  | item :: rest => item.finite && finiteItems rest

def finiteFields : List (String × Json) → Bool
  | [] => true
  | (_, value) :: rest => value.finite && finiteFields rest
end

theorem finiteItems_iff {items : List Json} : finiteItems items = true ↔ ∀ item ∈ items, item.finite = true := by
  induction items with
  | nil => simp [finiteItems]
  | cons item rest ih => simp [finiteItems, ih]

theorem finiteFields_iff {fields : List (String × Json)} :
    finiteFields fields = true ↔ ∀ e ∈ fields, e.2.finite = true := by
  induction fields with
  | nil => simp [finiteFields]
  | cons e rest ih => simp [finiteFields, ih]

end Json

namespace Number

/-- `a < b`; nothing is below or above NaN. -/
def lt : Number → Number → Bool
  | .finite a, .finite b => a < b
  | .finite _, .infinite negative => !negative
  | .infinite negative, .finite _ => negative
  | .infinite a, .infinite b => a && !b
  | .nan, _ => false
  | _, .nan => false

/-- `a <= b`. -/
def le (a b : Number) : Bool := a.lt b || (a == b && a != .nan)

end Number

end Nipoto
