import TwinView.Json.Basic

/-!
Picking typed values out of JSON. A record is written as an object, or as the list of its fields in
order; fields that are not known are ignored.
-/

namespace TwinView.Json

/-- The value of a field: absent, or given once. -/
def fieldOnce (members : List (String × Json)) (key : String) : Option (Option Json) :=
  match valuesOf key members with
  | [] => some none
  | [j] => some (some j)
  | _ => none

/-- The fields of a record in the order of their names. A repeated field is refused, and so is a
list that is longer than the record. -/
def fields (names : List String) : Json → Option (List (Option Json))
  | .obj members => names.mapM (fieldOnce members)
  | .arr items =>
    if items.length ≤ names.length then
      some (items.map some ++ List.replicate (names.length - items.length) none)
    else none
  | _ => none

def asString : Json → Option String
  | .str s => some s
  | _ => none

def asBool : Json → Option Bool
  | .bool b => some b
  | _ => none

/-- A whole number that is not negative. How large numbers are is up to the reader. -/
def asIndex : Json → Option Nat
  | .int n => if 0 ≤ n then some n.toNat else none
  | _ => none

/-- Reads a field that may be missing, with the value it then takes. -/
def withDefault {α : Type} (value : α) (read : Json → Option α) : Option Json → Option α
  | none => some value
  | some j => read j

def nullable {α : Type} (read : Json → Option α) : Json → Option (Option α)
  | .null => some none
  | j => (read j).map some

def optional {α : Type} (read : Json → Option α) : Option Json → Option (Option α) :=
  withDefault none (nullable read)

def ofString? : Option String → Json
  | none => .null
  | some s => .str s

end TwinView.Json
