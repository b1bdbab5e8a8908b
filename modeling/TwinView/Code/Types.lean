/-!
Types of the generated classes, and the coarser kinds that decide which values have to be coerced.
-/

namespace TwinView.Code

inductive Access
  | classOnly
  | subclasses
  | everyone
deriving DecidableEq, Repr

/-- What a script can observe of a value's type. -/
inductive Kind
  | object
  | number
  | text
  | boolean
  | void
deriving DecidableEq, Repr

inductive Ty
  | void
  | object
  | boolean
  | char
  | int
  | long
  | double
  | number
  | string
  | classRef
  | collection
  | iterator
  | mapEntry
  | map
  | list
  | context
  | view
  | part
  | ioException
  | named (name : String)
deriving DecidableEq, Repr

namespace Ty

def kind : Ty → Kind
  | .void => .void
  | .boolean => .boolean
  | .int | .long | .double | .number => .number
  | .char | .string => .text
  | _ => .object

def isBoolean (t : Ty) : Bool := t.kind = .boolean

def isNumber (t : Ty) : Bool := t.kind = .number

def isText (t : Ty) : Bool := t.kind = .text

def isScalar : Ty → Bool
  | .boolean | .char | .int | .long | .double => true
  | _ => false

/-- Whether a slot of type `t` takes a value of type `value` as it is. -/
def accepts (t value : Ty) : Bool :=
  match t with
  | .object => true
  | .number => value.isNumber
  | .collection => value = .collection || value = .list
  | _ => t = value

/-- The type of a value turned into a primitive one: whatever is no scalar, number or boolean
becomes a string. -/
def toPrimitive (t : Ty) : Ty := if t.isScalar || t.isNumber || t.isBoolean then t else .string

end Ty

end TwinView.Code
