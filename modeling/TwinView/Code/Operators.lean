/-!
Operators of scripts and of the generated code.
-/

namespace TwinView.Code

inductive Arith
  | add
  | subtract
  | multiply
  | divide
  | modulus
  | bitAnd
  | bitOr
  | bitXor
  | shiftLeft
  | shiftRight
  | shiftRightUnsigned
deriving DecidableEq, Repr

inductive Comparison
  | less
  | lessEqual
  | greater
  | greaterEqual
  | identical
  | notIdentical
  | equal
  | notEqual
deriving DecidableEq, Repr

inductive BinaryOp
  | assign
  | arith (op : Arith)
  /-- The compound assignment of an operator. -/
  | update (op : Arith)
  | and
  | or
  | compare (op : Comparison)
deriving DecidableEq, Repr

namespace BinaryOp

def updateBase : BinaryOp → Option BinaryOp
  | .update op => some (.arith op)
  | _ => none

def isAssignment : BinaryOp → Bool
  | .assign | .update _ => true
  | _ => false

def isComparison : BinaryOp → Bool
  | .compare _ => true
  | _ => false

end BinaryOp

inductive UnaryOp
  | not
  | bitNot
  | negate
  | plus
  | preIncrement
  | preDecrement
  | postIncrement
  | postDecrement
deriving DecidableEq, Repr

namespace UnaryOp

def isPost : UnaryOp → Bool
  | .postIncrement | .postDecrement => true
  | _ => false

def isStep : UnaryOp → Bool
  | .preIncrement | .preDecrement | .postIncrement | .postDecrement => true
  | _ => false

end UnaryOp

end TwinView.Code
