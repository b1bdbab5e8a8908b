import Mathlib.Tactic.SplitIfs
import TwinView.Code.Lowering

/-!
What holds of every expression inside an expression. Lowering puts its operands together with
operators, coercions and a few methods of the class, so a property of the operands that those have as
well carries over.
-/

namespace TwinView.Code

mutual

def Expr.Every (P : Expr → Prop) : Expr → Prop
  | .prim value p => P (.prim value p)
  | .var name type p => P (.var name type p)
  | .property target key p => P (.property target key p) ∧ target.Every P ∧ key.Every P
  | .field target name type p => P (.field target name type p) ∧ target.Every P
  | .this p => P (.this p)
  | .typeRef type p => P (.typeRef type p)
  | .binary op left right p => P (.binary op left right p) ∧ left.Every P ∧ right.Every P
  | .unary op operand p => P (.unary op operand p) ∧ operand.Every P
  | .ternary test yes no p => P (.ternary test yes no p) ∧ test.Every P ∧ yes.Every P ∧ no.Every P
  | .invoke result target method args p =>
    P (.invoke result target method args p) ∧ target.Every P ∧ Expr.EveryOf P args
  | .create typeName args p => P (.create typeName args p) ∧ Expr.EveryOf P args
  | .array element size items p => P (.array element size items p) ∧ Expr.EveryOf P items
  | .cast type operand p => P (.cast type operand p) ∧ operand.Every P
  | .extra name p => P (.extra name p)

def Expr.EveryOf (P : Expr → Prop) : List Expr → Prop
  | [] => True
  | e :: rest => e.Every P ∧ Expr.EveryOf P rest

end

namespace Expr

/-- The methods that a script may call: those that stand for operators, coercions and tests, and the
few that values have. -/
def scriptMethods : List String :=
  ["equal", "coerceEqual", "LogicalAND", "LogicalOR", "echo", "coerceBoolean", "coerceNumber",
    "coerceString", "typeOf", "containsKey", "asMap", "isArray", "isDate", "substring", "getClass"]

/-- What code of a script may consist of: it knows its variables, creates nothing and calls nothing but
those methods. -/
def ScriptNode (known : String → Prop) : Expr → Prop
  | .var name _ _ => known name
  | .field _ _ _ _ => False
  | .create _ _ _ => False
  | .invoke _ _ method _ _ => method ∈ scriptMethods
  | _ => True

abbrev IsScriptCode (known : String → Prop) (e : Expr) : Prop := e.Every (ScriptNode known)

abbrev AllScriptCode (known : String → Prop) (es : List Expr) : Prop := EveryOf (ScriptNode known) es

variable {known : String → Prop} {e target key left right test yes no : Expr} {args : List Expr}

theorem IsScriptCode.setParens (h : e.IsScriptCode known) (p : Bool) :
    (e.setParens p).IsScriptCode known := by
  cases e <;> exact h

theorem isScriptCode_const (value : Primitive) : (const value).IsScriptCode known := True.intro

theorem isScriptCode_invokeOn (result : Ty) {method : String} (hm : method ∈ scriptMethods)
    (ht : target.IsScriptCode known) (h : AllScriptCode known args) :
    (invokeOn result target method args).IsScriptCode known := ⟨hm, ht, h⟩

theorem isScriptCode_helper (result : Ty) {method : String} (hm : method ∈ scriptMethods)
    (h : AllScriptCode known args) : (invokeHelper result method args).IsScriptCode known :=
  ⟨hm, True.intro, h⟩

theorem isScriptCode_self (result : Ty) {method : String} (hm : method ∈ scriptMethods)
    (h : AllScriptCode known args) : (invokeSelf result method args).IsScriptCode known :=
  ⟨hm, True.intro, h⟩

theorem isScriptCode_operate (op : BinaryOp) (hl : left.IsScriptCode known)
    (hr : right.IsScriptCode known) : (operate op left right).IsScriptCode known :=
  ⟨True.intro, hl, hr⟩

theorem isScriptCode_apply (op : UnaryOp) (h : e.IsScriptCode known) :
    (apply op e).IsScriptCode known := ⟨True.intro, h⟩

theorem allScriptCode_one (h : e.IsScriptCode known) : AllScriptCode known [e] := ⟨h, True.intro⟩

theorem allScriptCode_two (hl : left.IsScriptCode known) (hr : right.IsScriptCode known) :
    AllScriptCode known [left, right] := ⟨hl, hr, True.intro⟩

theorem IsScriptCode.ensureBoolean (h : e.IsScriptCode known) : e.ensureBoolean.IsScriptCode known := by
  unfold Expr.ensureBoolean
  split_ifs
  · exact h
  · exact isScriptCode_helper _ (by simp [scriptMethods]) (allScriptCode_one h)

theorem IsScriptCode.ensureNumber (h : e.IsScriptCode known) : e.ensureNumber.IsScriptCode known := by
  unfold Expr.ensureNumber
  split_ifs
  · exact h
  · exact isScriptCode_helper _ (by simp [scriptMethods]) (allScriptCode_one h)

theorem IsScriptCode.ensureText (h : e.IsScriptCode known) : e.ensureText.IsScriptCode known := by
  unfold Expr.ensureText
  split_ifs
  · exact h
  · exact isScriptCode_helper _ (by simp [scriptMethods]) (allScriptCode_one h)

theorem IsScriptCode.ensureType (h : e.IsScriptCode known) (slot : Ty) :
    (e.ensureType slot).IsScriptCode known := by
  unfold Expr.ensureType
  split_ifs
  · exact h
  · exact h.ensureNumber
  · exact h.ensureText
  · exact h.ensureBoolean
  · exact h

theorem IsScriptCode.assignment (op : BinaryOp) (ht : target.IsScriptCode known)
    (hl : left.IsScriptCode known) (hr : right.IsScriptCode known) :
    (Expr.assignment op target left right).IsScriptCode known :=
  IsScriptCode.setParens (isScriptCode_operate _ ht
    (IsScriptCode.setParens (isScriptCode_operate _ hl hr) _)) _

theorem IsScriptCode.stepBefore (h : e.IsScriptCode known) (op : Arith) :
    (Expr.stepBefore op e).IsScriptCode known :=
  .assignment _ h h.ensureNumber (isScriptCode_const _)

theorem IsScriptCode.stepAfter (h : e.IsScriptCode known) (op : Arith) :
    (Expr.stepAfter op e).IsScriptCode known :=
  isScriptCode_self _ (by simp [scriptMethods]) (allScriptCode_two h.ensureNumber (h.stepBefore op))

theorem IsScriptCode.lowerBinary (op : BinaryOp) (hl : left.IsScriptCode known)
    (hr : right.IsScriptCode known) : (Expr.lowerBinary op left right).IsScriptCode known := by
  have hnumbers (op : BinaryOp) :
      (operate op left.ensureNumber right.ensureNumber).IsScriptCode known :=
    isScriptCode_operate op hl.ensureNumber hr.ensureNumber
  have hboth := allScriptCode_two hl hr
  unfold Expr.lowerBinary
  split
  · split_ifs
    · exact isScriptCode_operate _ hl hr
    · exact isScriptCode_self _ (by simp [scriptMethods]) hboth
  · split_ifs
    · exact isScriptCode_operate _ hl hr
    · exact isScriptCode_apply _ (isScriptCode_self _ (by simp [scriptMethods]) hboth)
  · exact isScriptCode_self _ (by simp [scriptMethods]) hboth
  · exact isScriptCode_apply _ (isScriptCode_self _ (by simp [scriptMethods]) hboth)
  · split_ifs
    · exact isScriptCode_operate _ hl.ensureText hr.ensureText
    · exact hnumbers _
  · split_ifs
    · exact .assignment _ hl hl.ensureText hr.ensureText
    · exact .assignment _ hl hl.ensureNumber hr.ensureNumber
  · exact isScriptCode_operate _ hl (hr.ensureType _)
  · split_ifs
    · exact isScriptCode_operate _ hl hr
    · exact isScriptCode_self _ (by simp [scriptMethods]) hboth
  · split_ifs
    · exact isScriptCode_operate _ hl hr
    · exact isScriptCode_self _ (by simp [scriptMethods]) hboth
  · split_ifs
    · exact .assignment _ hl hl.ensureNumber hr.ensureNumber
    · exact isScriptCode_operate _ hl (hr.ensureType _)
  · exact hnumbers _
  · exact hnumbers _

theorem IsScriptCode.lowerUnary (op : UnaryOp) (h : e.IsScriptCode known) :
    (Expr.lowerUnary op e).IsScriptCode known := by
  cases op with
  | not => exact isScriptCode_apply _ h.ensureBoolean
  | bitNot | negate | plus => exact isScriptCode_apply _ h.ensureNumber
  | preIncrement | preDecrement =>
      unfold Expr.lowerUnary
      dsimp only
      split_ifs
      · exact isScriptCode_apply _ h
      · exact h.stepBefore _
  | postIncrement | postDecrement =>
      unfold Expr.lowerUnary
      dsimp only
      split_ifs
      · exact isScriptCode_apply _ h
      · exact h.stepAfter _

theorem IsScriptCode.lowerTernary (ht : test.IsScriptCode known) (hy : yes.IsScriptCode known)
    (hn : no.IsScriptCode known) : (Expr.lowerTernary test yes no).IsScriptCode known :=
  ⟨True.intro, ht.ensureBoolean, hy, hn⟩

end Expr

end TwinView.Code
