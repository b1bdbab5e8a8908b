import TwinView.Code.Types
import TwinView.Number.Writing

/-!
Constants of the generated code.
-/

namespace TwinView.Code

inductive Primitive
  | null
  /-- The value of what has not been set, different from `null`. -/
  | undefined
  | bool (value : Bool)
  | char (value : Char)
  | int (value : Int)
  | long (value : Int)
  | double (value : Double)
  | text (value : String)
deriving Repr

namespace Primitive

def isInt32 (n : Int) : Bool := -0x80000000 ≤ n && n < 0x80000000

def isInt64 (n : Int) : Bool := -0x8000000000000000 ≤ n && n < 0x8000000000000000

/-- The narrowest constant that is exactly this number. Negative zero is no integer. -/
def ofDouble (x : Double) : Primitive :=
  match x.toInt? with
  | some n =>
    if x.isZero && x.isNegative then .double x
    else if isInt32 n then .int n
    else if isInt64 n then .long n
    else .double x
  | none => .double x

def type : Primitive → Ty
  | .null | .undefined => .object
  | .bool _ => .boolean
  | .char _ => .char
  | .int _ => .int
  | .long _ => .long
  | .double _ => .double
  | .text _ => .string

def toDouble? : Primitive → Option Double
  | .int n | .long n => some (Double.ofInt n)
  | .double x => some x
  | _ => none

def decimal (n : Int) : String := (if n < 0 then "-" else "") ++ n.natAbs.repr

def toText : Primitive → String
  | .null => "null"
  | .undefined => ""
  | .bool b => if b then "true" else "false"
  | .char c => c.toString
  | .int n | .long n => decimal n
  | .double x => if x.isInfinite then x.withSign "Infinity" else x.plain
  | .text s => s

def isNullish : Primitive → Bool
  | .null | .undefined => true
  | _ => false

/-- Equality of constants: doubles are compared as numbers, and a NaN equals itself. -/
def beq : Primitive → Primitive → Bool
  | .null, .null => true
  | .undefined, .undefined => true
  | .bool a, .bool b => a == b
  | .char a, .char b => a == b
  | .int a, .int b => a == b
  | .long a, .long b => a == b
  | .double a, .double b => a.same b
  | .text a, .text b => a == b
  | _, _ => false

instance : BEq Primitive := ⟨beq⟩

end Primitive

end TwinView.Code
