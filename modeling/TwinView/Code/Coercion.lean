import TwinView.Code.Expr

/-!
Coercions between the types of scripts and those of the generated code, and the operators that have
to be spelled out with them.
-/

namespace TwinView.Code.Expr

def dataHelper : Expr := .typeRef (.named "DuelData") false

def invokeHelper (result : Ty) (method : String) (args : List Expr) : Expr :=
  invokeOn result dataHelper method args

def ensureBoolean (e : Expr) : Expr :=
  if e.resultType.isBoolean then e else invokeHelper .boolean "coerceBoolean" [e]

def ensureNumber (e : Expr) : Expr :=
  if e.resultType.isNumber then e else invokeHelper .double "coerceNumber" [e]

def ensureText (e : Expr) : Expr :=
  if e.resultType.isText then e else invokeHelper .string "coerceString" [e]

def ensureCollection (e : Expr) : Expr :=
  if e.resultType = .list then e else invokeHelper .collection "coerceCollection" [e]

def ensureMap (e : Expr) : Expr :=
  if e.resultType = .map then e else invokeHelper .map "coerceMap" [e]

def ensureType (slot : Ty) (e : Expr) : Expr :=
  if slot.accepts e.resultType then e
  else if slot.isNumber then ensureNumber e
  else if slot.isText then ensureText e
  else if slot.isBoolean then ensureBoolean e
  else e

def equal (a b : Expr) : Expr := invokeSelf .boolean "equal" [a, b]

def notEqual (a b : Expr) : Expr := apply .not (equal a b)

def coerceEqual (a b : Expr) : Expr := invokeSelf .boolean "coerceEqual" [a, b]

def coerceNotEqual (a b : Expr) : Expr := apply .not (coerceEqual a b)

def assignment (op : BinaryOp) (target left right : Expr) : Expr :=
  (operate .assign target (operate op left right).withParens).withParens

/-- Adds one to a target, or subtracts it, and yields the new value. -/
def stepBefore (op : Arith) (target : Expr) : Expr :=
  assignment (.arith op) target (ensureNumber target) (int 1)

/-- Adds one to a target, or subtracts it, and yields the old value. -/
def stepAfter (op : Arith) (target : Expr) : Expr :=
  invokeSelf .double "echo" [ensureNumber target, stepBefore op target]

end TwinView.Code.Expr
