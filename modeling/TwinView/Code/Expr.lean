import TwinView.Code.Operators
import TwinView.Code.Primitive

/-!
Expressions of the generated code. Each has a static type, and a flag that tells whether it is
written between parentheses.
-/

namespace TwinView.Code

inductive Expr
  | prim (value : Primitive) (parens : Bool)
  | var (name : String) (type : Ty) (parens : Bool)
  /-- Access to a property whose key may be computed. -/
  | property (target key : Expr) (parens : Bool)
  | field (target : Expr) (name : String) (type : Ty) (parens : Bool)
  | this (parens : Bool)
  | typeRef (type : Ty) (parens : Bool)
  | binary (op : BinaryOp) (left right : Expr) (parens : Bool)
  | unary (op : UnaryOp) (operand : Expr) (parens : Bool)
  | ternary (test yes no : Expr) (parens : Bool)
  | invoke (result : Ty) (target : Expr) (method : String) (args : List Expr) (parens : Bool)
  | create (typeName : String) (args : List Expr) (parens : Bool)
  | array (element : Ty) (size : Nat) (items : List Expr) (parens : Bool)
  | cast (type : Ty) (operand : Expr) (parens : Bool)
  /-- A name that is looked up at render time. -/
  | extra (name : String) (parens : Bool)
deriving BEq, Repr

namespace Expr

/-- The type of a sum: a string as soon as one side is. -/
def sumType (left right : Ty) : Ty := if left.isText || right.isText then .string else .number

def eitherType (first second : Ty) : Ty := if first ≠ .object then first else second

/-- The static type; what is not known is an object. -/
def resultType : Expr → Ty
  | .prim value _ => value.type
  | .var _ type _ => type
  | .property _ _ _ => .object
  | .field _ _ type _ => type
  | .this _ => .object
  | .typeRef type _ => type
  | .binary op left right _ =>
    match op with
    | .arith .add => sumType left.resultType right.resultType
    | .and | .or =>
      if left.resultType.isBoolean && right.resultType.isBoolean then .boolean else .object
    | .assign => eitherType left.resultType right.resultType
    | .compare _ => .boolean
    | _ => .number
  | .unary op _ _ => if op = .not then .boolean else .number
  | .ternary _ yes no _ => eitherType yes.resultType no.resultType
  | .invoke result _ _ _ _ => result
  | .create typeName _ _ => .named typeName
  | .array _ _ _ _ => .list
  | .cast type _ _ => type
  | .extra _ _ => .object

def hasParens : Expr → Bool
  | .prim _ p | .var _ _ p | .property _ _ p | .field _ _ _ p | .this p | .typeRef _ p
  | .binary _ _ _ p | .unary _ _ p | .ternary _ _ _ p | .invoke _ _ _ _ p | .create _ _ p
  | .array _ _ _ p | .cast _ _ p | .extra _ p => p

def setParens (p : Bool) : Expr → Expr
  | .prim value _ => .prim value p
  | .var name type _ => .var name type p
  | .property target key _ => .property target key p
  | .field target name type _ => .field target name type p
  | .this _ => .this p
  | .typeRef type _ => .typeRef type p
  | .binary op left right _ => .binary op left right p
  | .unary op operand _ => .unary op operand p
  | .ternary test yes no _ => .ternary test yes no p
  | .invoke result target method args _ => .invoke result target method args p
  | .create typeName args _ => .create typeName args p
  | .array element size items _ => .array element size items p
  | .cast type operand _ => .cast type operand p
  | .extra name _ => .extra name p

def withParens (e : Expr) : Expr := e.setParens true

def primitive? : Expr → Option Primitive
  | .prim value _ => some value
  | _ => none

def isNullish (e : Expr) : Bool := e.primitive?.any Primitive.isNullish

/-- Whether the expression is kept by the runtime rather than by a variable. -/
def isStored : Expr → Bool
  | .property _ _ _ | .extra _ _ => true
  | _ => false

def const (value : Primitive) : Expr := .prim value false

def null : Expr := const .null

def undefined : Expr := const .undefined

def int (n : Int) : Expr := const (.int n)

def bool (b : Bool) : Expr := const (.bool b)

def text (s : String) : Expr := const (.text s)

def number (x : Double) : Expr := const (.ofDouble x)

def variableRef (type : Ty) (name : String) : Expr := .var name type false

def context : Expr := variableRef .context "context"

def propertyOf (target key : Expr) : Expr := .property target key false

def self : Expr := .this false

def operate (op : BinaryOp) (left right : Expr) : Expr := .binary op left right false

def apply (op : UnaryOp) (operand : Expr) : Expr := .unary op operand false

def either (test yes no : Expr) : Expr := .ternary test yes no false

def invokeOn (result : Ty) (target : Expr) (method : String) (args : List Expr) : Expr :=
  .invoke result target method args false

def invokeSelf (result : Ty) (method : String) (args : List Expr) : Expr :=
  invokeOn result self method args

end Expr

end TwinView.Code
