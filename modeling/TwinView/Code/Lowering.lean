import TwinView.Code.Coercion

/-!
Operators of scripts, which know no types, turned into typed expressions. Each rule looks at the
static types of the operands.
-/

namespace TwinView.Code.Expr

def needsSpelling (target : Expr) : Bool :=
  target.isStored || !target.resultType.isNumber

def concatenates (e : Expr) : Bool := e.resultType.toPrimitive.isText

def lowerBinary (op : BinaryOp) (left right : Expr) : Expr :=
  match op with
  | .compare .identical =>
    if left.isNullish || right.isNullish then operate op left right else equal left right
  | .compare .notIdentical =>
    if left.isNullish || right.isNullish then operate op left right else notEqual left right
  | .compare .equal => coerceEqual left right
  | .compare .notEqual => coerceNotEqual left right
  | .arith .add =>
    if concatenates left || concatenates right then operate op (ensureText left) (ensureText right)
    else operate op (ensureNumber left) (ensureNumber right)
  | .update .add =>
    if concatenates left then
      assignment (.arith .add) left (ensureText left) (ensureText right)
    else assignment (.arith .add) left (ensureNumber left) (ensureNumber right)
  | .assign => operate .assign left (ensureType left.resultType right)
  | .and =>
    if left.resultType.isBoolean && right.resultType.isBoolean then operate op left right
    else invokeSelf .object "LogicalAND" [left, right]
  | .or =>
    if left.resultType.isBoolean && right.resultType.isBoolean then operate op left right
    else invokeSelf .object "LogicalOR" [left, right]
  | .update base =>
    if needsSpelling left then
      assignment (.arith base) left (ensureNumber left) (ensureNumber right)
    else operate op left (ensureType left.resultType right)
  | .arith _ | .compare _ => operate op (ensureNumber left) (ensureNumber right)

def lowerUnary (op : UnaryOp) (e : Expr) : Expr :=
  match op with
  | .not => apply op (ensureBoolean e)
  | .bitNot | .negate | .plus => apply op (ensureNumber e)
  | .preIncrement => if e.resultType.isNumber then apply op e else stepBefore .add e
  | .preDecrement => if e.resultType.isNumber then apply op e else stepBefore .subtract e
  | .postIncrement => if e.resultType.isNumber then apply op e else stepAfter .add e
  | .postDecrement => if e.resultType.isNumber then apply op e else stepAfter .subtract e

def lowerTernary (test yes no : Expr) : Expr := either (ensureBoolean test) yes no

end TwinView.Code.Expr
