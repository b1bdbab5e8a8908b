import TwinView.Number.Double

/-!
JSON values. Objects keep the order of their members, and whole numbers are kept apart from numbers
with a fraction or an exponent.
-/

namespace TwinView

inductive Json
  | null
  | bool (value : Bool)
  | int (value : Int)
  | float (value : Double)
  | str (value : String)
  | arr (items : List Json)
  | obj (members : List (String × Json))
  /-- A value that is well formed and denotes nothing: a number out of range, a string with an
  unpaired surrogate, or an object with such a string as a key. -/
  | void
deriving Inhabited, Repr

namespace Json

/-- Puts a member into an ordered map: a new key goes last, a known one keeps its place and takes
the new value. -/
def put {α : Type} (key : String) (value : α) : List (String × α) → List (String × α)
  | [] => [(key, value)]
  | (k, v) :: rest => if k = key then (k, value) :: rest else (k, v) :: put key value rest

mutual

/-- The value with every repeated key of its objects settled: first place, last value. -/
def settle : Json → Json
  | .arr items => .arr (settleAll items)
  | .obj members => .obj ((settleMembers members).foldl (fun ms (k, v) => put k v ms) [])
  | j => j

def settleAll : List Json → List Json
  | [] => []
  | j :: rest => j.settle :: settleAll rest

def settleMembers : List (String × Json) → List (String × Json)
  | [] => []
  | (k, j) :: rest => (k, j.settle) :: settleMembers rest

end

def valuesOf (key : String) (members : List (String × Json)) : List Json :=
  (members.filter (·.1 == key)).map (·.2)

mutual

def depth : Json → Nat
  | .arr items => depthAll items + 1
  | .obj members => depthMembers members + 1
  | _ => 0

def depthAll : List Json → Nat
  | [] => 0
  | j :: rest => max j.depth (depthAll rest)

def depthMembers : List (String × Json) → Nat
  | [] => 0
  | (_, j) :: rest => max j.depth (depthMembers rest)

end

end Json

end TwinView
