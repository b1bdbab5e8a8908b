import Mathlib.Tactic.SplitIfs
import TwinView.Code.Class
import TwinView.Code.Lowering
import TwinView.Proofs.Code.Naming

/-!
Code without the numbers of its names. Which numbers a script gets depends on what has been built
before it; everything else about its code does not, because no rule of lowering looks at a number.
-/

namespace TwinView.Code

mutual

def Expr.unnumber : Expr → Expr
  | .prim value p => .prim value p
  | .var name type p => .var (unnumbered name) type p
  | .property target key p => .property target.unnumber key.unnumber p
  | .field target name type p => .field target.unnumber (unnumbered name) type p
  | .this p => .this p
  | .typeRef type p => .typeRef type p
  | .binary op left right p => .binary op left.unnumber right.unnumber p
  | .unary op operand p => .unary op operand.unnumber p
  | .ternary test yes no p => .ternary test.unnumber yes.unnumber no.unnumber p
  | .invoke result target method args p =>
    .invoke result target.unnumber (unnumbered method) (Expr.unnumberAll args) p
  | .create typeName args p => .create typeName (Expr.unnumberAll args) p
  | .array element size items p => .array element size (Expr.unnumberAll items) p
  | .cast type operand p => .cast type operand.unnumber p
  | .extra name p => .extra name p

def Expr.unnumberAll : List Expr → List Expr
  | [] => []
  | e :: rest => e.unnumber :: Expr.unnumberAll rest

end

namespace Expr

variable (e target left right test yes no : Expr)

@[simp] theorem resultType_unnumber : e.unnumber.resultType = e.resultType := by
  induction e using resultType.induct <;> simp_all [unnumber, resultType]

@[simp] theorem primitive?_unnumber : e.unnumber.primitive? = e.primitive? := by
  cases e <;> rfl

@[simp] theorem isNullish_unnumber : e.unnumber.isNullish = e.isNullish := by
  simp [isNullish]

@[simp] theorem isStored_unnumber : e.unnumber.isStored = e.isStored := by
  cases e <;> rfl

@[simp] theorem unnumber_setParens (p : Bool) :
    (e.setParens p).unnumber = e.unnumber.setParens p := by
  cases e <;> rfl

@[simp] theorem unnumber_withParens : e.withParens.unnumber = e.unnumber.withParens :=
  unnumber_setParens e true

@[simp] theorem unnumber_const (value : Primitive) : (const value).unnumber = const value := rfl

@[simp] theorem unnumber_propertyOf :
    (propertyOf target e).unnumber = propertyOf target.unnumber e.unnumber := rfl

@[simp] theorem unnumber_operate (op : BinaryOp) :
    (operate op left right).unnumber = operate op left.unnumber right.unnumber := rfl

@[simp] theorem unnumber_apply (op : UnaryOp) : (apply op e).unnumber = apply op e.unnumber := rfl

@[simp] theorem unnumber_either :
    (either test yes no).unnumber = either test.unnumber yes.unnumber no.unnumber := rfl

@[simp] theorem unnumber_invokeOn (result : Ty) (method : String) (args : List Expr) :
    (invokeOn result target method args).unnumber =
      invokeOn result target.unnumber (unnumbered method) (unnumberAll args) := rfl

@[simp] theorem unnumber_invokeSelf (result : Ty) (method : String) (args : List Expr) :
    (invokeSelf result method args).unnumber =
      invokeSelf result (unnumbered method) (unnumberAll args) := rfl

@[simp] theorem unnumber_invokeHelper (result : Ty) (method : String) (args : List Expr) :
    (invokeHelper result method args).unnumber =
      invokeHelper result (unnumbered method) (unnumberAll args) := rfl

@[simp] theorem unnumberAll_nil : unnumberAll [] = [] := rfl

@[simp] theorem unnumberAll_cons (rest : List Expr) :
    unnumberAll (e :: rest) = e.unnumber :: unnumberAll rest := rfl

@[simp] theorem unnumber_ensureBoolean : (ensureBoolean e).unnumber = ensureBoolean e.unnumber := by
  unfold ensureBoolean
  rw [resultType_unnumber]
  split <;> rfl

@[simp] theorem unnumber_ensureNumber : (ensureNumber e).unnumber = ensureNumber e.unnumber := by
  unfold ensureNumber
  rw [resultType_unnumber]
  split <;> rfl

@[simp] theorem unnumber_ensureText : (ensureText e).unnumber = ensureText e.unnumber := by
  unfold ensureText
  rw [resultType_unnumber]
  split <;> rfl

@[simp] theorem unnumber_ensureCollection :
    (ensureCollection e).unnumber = ensureCollection e.unnumber := by
  unfold ensureCollection
  rw [resultType_unnumber]
  split <;> rfl

@[simp] theorem unnumber_ensureMap : (ensureMap e).unnumber = ensureMap e.unnumber := by
  unfold ensureMap
  rw [resultType_unnumber]
  split <;> rfl

@[simp] theorem unnumber_ensureType (slot : Ty) :
    (ensureType slot e).unnumber = ensureType slot e.unnumber := by
  unfold ensureType
  rw [resultType_unnumber]
  split_ifs <;> simp

@[simp] theorem unnumber_equal : (equal left right).unnumber = equal left.unnumber right.unnumber :=
  rfl

@[simp] theorem unnumber_notEqual :
    (notEqual left right).unnumber = notEqual left.unnumber right.unnumber := rfl

@[simp] theorem unnumber_coerceEqual :
    (coerceEqual left right).unnumber = coerceEqual left.unnumber right.unnumber := rfl

@[simp] theorem unnumber_coerceNotEqual :
    (coerceNotEqual left right).unnumber = coerceNotEqual left.unnumber right.unnumber := rfl

@[simp] theorem unnumber_assignment (op : BinaryOp) :
    (assignment op target left right).unnumber =
      assignment op target.unnumber left.unnumber right.unnumber := by
  simp [assignment]

@[simp] theorem unnumber_stepBefore (op : Arith) :
    (stepBefore op e).unnumber = stepBefore op e.unnumber := by
  simp [stepBefore, int]

@[simp] theorem unnumber_stepAfter (op : Arith) :
    (stepAfter op e).unnumber = stepAfter op e.unnumber := by
  have hname : unnumbered "echo" = "echo" := by decide
  simp [stepAfter, hname]

@[simp] theorem concatenates_unnumber : e.unnumber.concatenates = e.concatenates := by
  simp [concatenates]

@[simp] theorem needsSpelling_unnumber : e.unnumber.needsSpelling = e.needsSpelling := by
  simp [needsSpelling]

theorem unnumber_lowerBinary (op : BinaryOp) :
    (lowerBinary op left right).unnumber = lowerBinary op left.unnumber right.unnumber := by
  have hand : unnumbered "LogicalAND" = "LogicalAND" := by decide
  have hor : unnumbered "LogicalOR" = "LogicalOR" := by decide
  cases op with
  | assign => simp [lowerBinary]
  | arith op =>
      cases op with
      | add => simp only [lowerBinary, concatenates_unnumber]; split_ifs <;> simp
      | _ => simp [lowerBinary]
  | update op =>
      cases op with
      | add => simp only [lowerBinary, concatenates_unnumber]; split_ifs <;> simp
      | _ => simp only [lowerBinary, needsSpelling_unnumber]; split_ifs <;> simp
  | and | or =>
      simp only [lowerBinary, resultType_unnumber]
      split_ifs <;> simp [hand, hor]
  | compare op =>
      cases op with
      | identical | notIdentical =>
          simp only [lowerBinary, isNullish_unnumber]
          split_ifs <;> simp
      | _ => simp [lowerBinary]

theorem unnumber_lowerUnary (op : UnaryOp) :
    (lowerUnary op e).unnumber = lowerUnary op e.unnumber := by
  cases op <;> simp only [lowerUnary, resultType_unnumber] <;> (try split_ifs) <;> simp

theorem unnumber_lowerTernary :
    (lowerTernary test yes no).unnumber = lowerTernary test.unnumber yes.unnumber no.unnumber := by
  simp [lowerTernary]

end Expr

def VarDecl.unnumber (d : VarDecl) : VarDecl :=
  { d with name := unnumbered d.name, init := d.init.map Expr.unnumber }

mutual

def Stmt.unnumber : Stmt → Stmt
  | .expr e origin => .expr e.unnumber origin
  | .var decl => .var decl.unnumber
  | .vars decls => .vars (decls.map VarDecl.unnumber)
  | .cond test yes no => .cond test.unnumber (Stmt.unnumberAll yes) (Stmt.unnumberAll no)
  | .loop init test step body =>
    .loop (Stmt.unnumberOption init) test.unnumber (Stmt.unnumberOption step) (Stmt.unnumberAll body)
  | .ret value => .ret (value.map Expr.unnumber)
  | .comment value => .comment value

def Stmt.unnumberAll : List Stmt → List Stmt
  | [] => []
  | s :: rest => s.unnumber :: Stmt.unnumberAll rest

def Stmt.unnumberOption : Option Stmt → Option Stmt
  | none => none
  | some s => some s.unnumber

end

theorem Stmt.unnumberAll_append (a b : List Stmt) :
    Stmt.unnumberAll (a ++ b) = Stmt.unnumberAll a ++ Stmt.unnumberAll b := by
  induction a with
  | nil => rfl
  | cons s rest ih => simp [Stmt.unnumberAll, ih]

theorem Stmt.unnumberAll_eq_map (stmts : List Stmt) :
    Stmt.unnumberAll stmts = stmts.map Stmt.unnumber := by
  induction stmts with
  | nil => rfl
  | cons s rest ih => simp [Stmt.unnumberAll, ih]

def Method.unnumber (m : Method) : Method :=
  { m with name := unnumbered m.name, body := Stmt.unnumberAll m.body }

theorem Method.inline?_unnumber (m : Method) : m.unnumber.inline? = m.inline?.map Expr.unnumber := by
  obtain ⟨access, returns, name, params, body, throws, overrides⟩ := m
  match params, body with
  | [p, _, _, _, _], [.ret value] =>
      simp only [Method.unnumber, Stmt.unnumberAll, Stmt.unnumber, Method.inline?]
      split <;> simp
  | [_, _, _, _, _], first :: _ :: _ => cases first <;> rfl
  | [_, _, _, _, _], [] | [_, _, _, _, _], [.expr _ _] | [_, _, _, _, _], [.var _]
  | [_, _, _, _, _], [.vars _] | [_, _, _, _, _], [.cond _ _ _] | [_, _, _, _, _], [.loop _ _ _ _]
  | [_, _, _, _, _], [.comment _] => rfl
  | [], _ | [_], _ | [_, _], _ | [_, _, _], _ | [_, _, _, _], _
  | _ :: _ :: _ :: _ :: _ :: _ :: _, _ => rfl

end TwinView.Code
