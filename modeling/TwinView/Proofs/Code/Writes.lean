import Mathlib.Tactic.SplitIfs
import TwinView.Code.Lowering

/-!
The nodes of an expression that write: assignments, compound assignments and steps. Coercions and calls
add none, and an assignment that is spelled out is one such node with all the writes of its operands.
-/

namespace TwinView.Code

/-- A node that writes, with the variable that it writes to, if it is one. An assignment shows the
operator that it applies, if its right side is one. -/
inductive Write
  | assign (target : Option String) (applied : Option Arith)
  | update (target : Option String) (op : Arith)
  | step (target : Option String) (op : UnaryOp)
deriving DecidableEq, Repr

def Write.target : Write → Option String
  | .assign target _ | .update target _ | .step target _ => target

namespace Expr

def arith? : Expr → Option Arith
  | .binary (.arith op) _ _ _ => some op
  | _ => none

def varName? : Expr → Option String
  | .var name _ _ => some name
  | _ => none

def operatorWrites (op : BinaryOp) (left right : Expr) : List Write :=
  match op with
  | .assign => [.assign left.varName? right.arith?]
  | .update op => [.update left.varName? op]
  | _ => []

def stepWrites (op : UnaryOp) (operand : Expr) : List Write :=
  if op.isStep then [.step operand.varName? op] else []

mutual

/-- The nodes of an expression that write, one entry for each. -/
def writes : Expr → List Write
  | .binary op left right _ => operatorWrites op left right ++ left.writes ++ right.writes
  | .unary op operand _ => stepWrites op operand ++ operand.writes
  | .property target key _ => target.writes ++ key.writes
  | .field target _ _ _ => target.writes
  | .ternary test yes no _ => test.writes ++ yes.writes ++ no.writes
  | .invoke _ target _ args _ => target.writes ++ allWrites args
  | .create _ args _ => allWrites args
  | .array _ _ items _ => allWrites items
  | .cast _ operand _ => operand.writes
  | .prim _ _ | .var _ _ _ | .this _ | .typeRef _ _ | .extra _ _ => []

def allWrites : List Expr → List Write
  | [] => []
  | e :: rest => e.writes ++ allWrites rest

end

variable {e target left right : Expr} {args : List Expr}

@[simp] theorem writes_setParens (p : Bool) : (e.setParens p).writes = e.writes := by
  cases e <;> rfl

@[simp] theorem writes_const (value : Primitive) : (const value).writes = [] := rfl

@[simp] theorem writes_variableRef (type : Ty) (name : String) :
    (variableRef type name).writes = [] := rfl

@[simp] theorem writes_propertyOf {key : Expr} :
    (propertyOf target key).writes = target.writes ++ key.writes := rfl

@[simp] theorem writes_invokeOn (result : Ty) (method : String) :
    (invokeOn result target method args).writes = target.writes ++ allWrites args := rfl

@[simp] theorem writes_invokeSelf (result : Ty) (method : String) :
    (invokeSelf result method args).writes = allWrites args := rfl

@[simp] theorem writes_invokeHelper (result : Ty) (method : String) :
    (invokeHelper result method args).writes = allWrites args := rfl

@[simp] theorem writes_operate (op : BinaryOp) :
    (operate op left right).writes = operatorWrites op left right ++ left.writes ++ right.writes := rfl

@[simp] theorem writes_apply (op : UnaryOp) :
    (apply op e).writes = stepWrites op e ++ e.writes := rfl

@[simp] theorem writes_ensureBoolean : e.ensureBoolean.writes = e.writes := by
  unfold ensureBoolean
  split <;> simp [allWrites]

@[simp] theorem writes_ensureNumber : e.ensureNumber.writes = e.writes := by
  unfold ensureNumber
  split <;> simp [allWrites]

@[simp] theorem writes_ensureText : e.ensureText.writes = e.writes := by
  unfold ensureText
  split <;> simp [allWrites]

@[simp] theorem writes_ensureType (slot : Ty) : (e.ensureType slot).writes = e.writes := by
  unfold ensureType
  split_ifs <;> simp

/-- A spelled out assignment writes once, and has the writes of all its operands. -/
theorem writes_assignment (op : Arith) :
    (assignment (.arith op) target left right).writes =
      .assign target.varName? (some op) :: (target.writes ++ (left.writes ++ right.writes)) := by
  simp [assignment, withParens, setParens, operate, writes, operatorWrites, arith?]

end Expr

end TwinView.Code
