import TwinView.Proofs.Code.Compound
import TwinView.Proofs.Code.Subterms
import TwinView.Proofs.Script.Faces

/-!
What the nodes of lowered code write to. A write needs a variable, a property or a name that is looked up,
and a variable of a number, a text or a boolean should get a value of its own kind. Lowering makes the value
of a plain assignment fit its target, and that of a sum mostly does; every other operator stores a number.
-/

namespace TwinView.Code

/-- Whether a variable of type `slot` may hold a value: only numbers, texts and booleans are kept apart. -/
def Ty.holds (slot value : Ty) : Bool :=
  match slot.kind with
  | .object | .void => true
  | kind => value.kind = kind

theorem Ty.holds_of_kind {slot value : Ty} (h : value.kind = slot.kind) : slot.holds value := by
  unfold Ty.holds
  split <;> simp_all

theorem Ty.holds_of_accepts {slot value : Ty} (h : slot.accepts value) : slot.holds value := by
  cases slot with
  | number => exact h
  | object | collection => rfl
  | _ =>
      cases of_decide_eq_true h
      exact holds_of_kind rfl

theorem Ty.holds_number {slot : Ty} (h : slot.isNumber) : slot.holds .number := by
  refine holds_of_kind ?_
  exact (of_decide_eq_true h).symm

/-- A value that was made to fit a slot may be kept there. -/
theorem Ty.holds_fitting (slot value : Ty) : slot.holds (slot.fitting value) := by
  unfold Ty.fitting
  split_ifs with haccepts hnumber hvalue htext hvalue hboolean hvalue
  · exact holds_of_accepts haccepts
  · exact holds_of_kind ((of_decide_eq_true hvalue).trans (of_decide_eq_true hnumber).symm)
  · exact holds_number hnumber
  · exact holds_of_kind ((of_decide_eq_true hvalue).trans (of_decide_eq_true htext).symm)
  · exact holds_of_kind (of_decide_eq_true htext).symm
  · exact holds_of_kind ((of_decide_eq_true hvalue).trans (of_decide_eq_true hboolean).symm)
  · exact holds_of_kind (of_decide_eq_true hboolean).symm
  · unfold Ty.holds
    split
    · rfl
    · rfl
    · next hobject hvoid =>
        simp only [Ty.isNumber, Ty.isText, Ty.isBoolean, decide_eq_true_eq] at hnumber htext hboolean
        cases h : slot.kind <;> contradiction

def BinaryOp.targetFits (op : BinaryOp) (place : Bool) (type : Ty) : Bool :=
  match op with
  | .assign => place
  | .update base =>
    place && type.holds (if base = .add && type.toPrimitive.isText then .string else .number)
  | _ => true

def UnaryOp.targetFits (op : UnaryOp) (place : Bool) (type : Ty) : Bool :=
  !op.isStep || (place && type.holds .number)

namespace Expr

/-- What can be written to. -/
def isPlace : Expr → Bool
  | .var _ _ _ | .property _ _ _ | .extra _ _ => true
  | _ => false

def takes (target : Expr) (value : Ty) : Bool :=
  match target with
  | .var _ type _ => type.holds value
  | _ => true

/-- Whether a node writes, if it does, to a place, and assigns a variable what it may hold. -/
def writeFits : Expr → Bool
  | .binary .assign target value _ => target.isPlace && target.takes value.resultType
  | .binary (.update _) target _ _ => target.isPlace
  | .unary op operand _ => !op.isStep || operand.isPlace
  | _ => true

abbrev WritesFit (e : Expr) : Prop := e.Every fun e => e.writeFits

abbrev AllWritesFit (es : List Expr) : Prop := EveryOf (fun e => e.writeFits) es

variable {e target key left right test yes no : Expr} {args : List Expr}

@[simp] theorem isPlace_setParens (p : Bool) (e : Expr) : (e.setParens p).isPlace = e.isPlace := by
  cases e <;> rfl

theorem takes_eq (h : e.isPlace) (value : Ty) : e.takes value = e.resultType.holds value := by
  cases e <;> first | rfl | cases h

@[simp] theorem writesFit_setParens (p : Bool) : (e.setParens p).WritesFit ↔ e.WritesFit := by
  cases e with
  | binary op => cases op <;> rfl
  | _ => rfl

@[simp] theorem writesFit_const (value : Primitive) : (const value).WritesFit := rfl

@[simp] theorem writesFit_variableRef (type : Ty) (name : String) : (variableRef type name).WritesFit := rfl

@[simp] theorem writesFit_propertyOf :
    (propertyOf target key).WritesFit ↔ target.WritesFit ∧ key.WritesFit :=
  and_iff_right rfl

@[simp] theorem allWritesFit_nil : AllWritesFit [] := True.intro

@[simp] theorem allWritesFit_cons : AllWritesFit (e :: args) ↔ e.WritesFit ∧ AllWritesFit args := Iff.rfl

@[simp] theorem writesFit_invokeOn (result : Ty) (method : String) :
    (invokeOn result target method args).WritesFit ↔ target.WritesFit ∧ AllWritesFit args :=
  and_iff_right rfl

@[simp] theorem writesFit_invokeSelf (result : Ty) (method : String) :
    (invokeSelf result method args).WritesFit ↔ AllWritesFit args :=
  (writesFit_invokeOn result method).trans (and_iff_right rfl)

@[simp] theorem writesFit_invokeHelper (result : Ty) (method : String) :
    (invokeHelper result method args).WritesFit ↔ AllWritesFit args :=
  (writesFit_invokeOn result method).trans (and_iff_right rfl)

@[simp] theorem writesFit_array (element : Ty) (size : Nat) (p : Bool) :
    (Expr.array element size args p).WritesFit ↔ AllWritesFit args :=
  and_iff_right rfl

@[simp] theorem writesFit_either :
    (either test yes no).WritesFit ↔ test.WritesFit ∧ yes.WritesFit ∧ no.WritesFit :=
  and_iff_right rfl

@[simp] theorem writesFit_ensureBoolean : e.ensureBoolean.WritesFit ↔ e.WritesFit := by
  unfold ensureBoolean
  split <;> simp

@[simp] theorem writesFit_ensureNumber : e.ensureNumber.WritesFit ↔ e.WritesFit := by
  unfold ensureNumber
  split <;> simp

@[simp] theorem writesFit_ensureText : e.ensureText.WritesFit ↔ e.WritesFit := by
  unfold ensureText
  split <;> simp

@[simp] theorem writesFit_ensureType (slot : Ty) : (e.ensureType slot).WritesFit ↔ e.WritesFit := by
  unfold ensureType
  split_ifs <;> simp

theorem writesFit_operate (op : BinaryOp) : (operate op left right).WritesFit ↔
    (operate op left right).writeFits ∧ left.WritesFit ∧ right.WritesFit := Iff.rfl

theorem writesFit_apply (op : UnaryOp) :
    (apply op e).WritesFit ↔ (apply op e).writeFits ∧ e.WritesFit := Iff.rfl

theorem apply_writeFits (op : UnaryOp) : (apply op e).writeFits = (!op.isStep || e.isPlace) := rfl

/-- A spelled out assignment writes once, and stores the result of its operator. -/
theorem writesFit_assignment (op : Arith) : (assignment (.arith op) target left right).WritesFit ↔
    (target.isPlace && target.resultType.holds (operate (.arith op) left right).resultType) ∧
      target.WritesFit ∧ left.WritesFit ∧ right.WritesFit := by
  have hvalue : (operate (.arith op) left right).WritesFit ↔ left.WritesFit ∧ right.WritesFit :=
    and_iff_right rfl
  have hnode : (operate .assign target (operate (.arith op) left right).withParens).writeFits =
      (target.isPlace && target.resultType.holds (operate (.arith op) left right).resultType) := by
    simp only [operate, writeFits, withParens, setParens, resultType]
    cases h : target.isPlace with
    | true => rw [takes_eq h]
    | false => rfl
  rw [assignment, withParens, writesFit_setParens, writesFit_operate, hnode, withParens,
    writesFit_setParens, hvalue]

theorem writeFits_assign : (operate .assign left (right.ensureType left.resultType)).writeFits =
    left.isPlace := by
  simp only [operate, writeFits]
  cases h : left.isPlace with
  | true => rw [takes_eq h, resultType_ensureType, Ty.holds_fitting, Bool.true_and]
  | false => rfl

theorem writesFit_lowerUpdate (op : Arith) : (lowerBinary (.update op) left right).WritesFit ↔
    (BinaryOp.update op).targetFits left.isPlace left.resultType ∧
      left.WritesFit ∧ right.WritesFit := by
  have hnumbers : (assignment (.arith op) left left.ensureNumber right.ensureNumber).WritesFit ↔
      (left.isPlace && left.resultType.holds .number) ∧ left.WritesFit ∧ right.WritesFit := by
    rw [writesFit_assignment, resultType_numbers, writesFit_ensureNumber, writesFit_ensureNumber]
    tauto
  by_cases hop : op = .add
  · subst hop
    have htexts : (assignment (.arith .add) left left.ensureText right.ensureText).WritesFit ↔
        (left.isPlace && left.resultType.holds .string) ∧ left.WritesFit ∧ right.WritesFit := by
      rw [writesFit_assignment, resultType_texts, writesFit_ensureText, writesFit_ensureText]
      tauto
    rw [lowerBinary_addTo, concatenates, BinaryOp.targetFits, decide_eq_true rfl, Bool.true_and]
    split_ifs
    · exact htexts
    · exact hnumbers
  · rw [lowerBinary_update hop, needsSpelling_eq, BinaryOp.targetFits, decide_eq_false hop, Bool.false_and]
    cases hnumber : left.resultType.isNumber with
    | true =>
        have hkept : (operate (.update op) left (right.ensureType left.resultType)).writeFits =
            left.isPlace := rfl
        rw [if_neg (by simp), if_neg (by simp), writesFit_operate, hkept, writesFit_ensureType,
          Ty.holds_number hnumber, Bool.and_true]
    | false => exact hnumbers

theorem writesFit_of_quiet {op : BinaryOp} (hop : op.isAssignment = false) :
    (lowerBinary op left right).WritesFit ↔ left.WritesFit ∧ right.WritesFit := by
  have hoperate {l r : Expr} : (operate op l r).WritesFit ↔ l.WritesFit ∧ r.WritesFit := by
    refine and_iff_right ?_
    cases op with
    | assign | update => cases hop
    | _ => rfl
  have hself (method : String) : (invokeSelf .boolean method [left, right]).WritesFit ↔
      left.WritesFit ∧ right.WritesFit := by simp
  have hnot {e : Expr} : (apply .not e).WritesFit ↔ e.WritesFit := and_iff_right rfl
  cases op with
  | assign | update => cases hop
  | and | or =>
      unfold lowerBinary
      split_ifs <;> simp [hoperate]
  | arith op =>
      cases op with
      | add =>
          unfold lowerBinary
          dsimp only
          split_ifs <;> simp [hoperate]
      | _ => simp [lowerBinary, hoperate]
  | compare op =>
      unfold lowerBinary
      cases op with
      | identical =>
          dsimp only
          split_ifs
          · exact hoperate
          · exact hself _
      | notIdentical =>
          dsimp only
          split_ifs
          · exact hoperate
          · exact hnot.trans (hself _)
      | equal => exact hself _
      | notEqual => exact hnot.trans (hself _)
      | _ => simp [hoperate]

theorem writesFit_lowerBinary (op : BinaryOp) : (lowerBinary op left right).WritesFit ↔
    op.targetFits left.isPlace left.resultType ∧ left.WritesFit ∧ right.WritesFit := by
  cases op with
  | assign =>
      rw [lowerBinary, writesFit_operate, writeFits_assign, writesFit_ensureType]
      rfl
  | update op => exact writesFit_lowerUpdate op
  | arith | and | or | compare =>
      rw [writesFit_of_quiet rfl]
      exact (and_iff_right rfl).symm

theorem writesFit_lowerUnary (op : UnaryOp) : (lowerUnary op e).WritesFit ↔
    op.targetFits e.isPlace e.resultType ∧ e.WritesFit := by
  have hbefore (op : Arith) : (stepBefore op e).WritesFit ↔
      (e.isPlace && e.resultType.holds .number) ∧ e.WritesFit := by
    rw [stepBefore, writesFit_assignment, resultType_of_isNumber op (isNumber_ensureNumber e) rfl]
    simp [int]
  have hafter (op : Arith) : (stepAfter op e).WritesFit ↔
      (e.isPlace && e.resultType.holds .number) ∧ e.WritesFit := by
    rw [stepAfter, writesFit_invokeSelf, allWritesFit_cons, allWritesFit_cons, hbefore]
    simp
  cases op with
  | not | bitNot | negate | plus =>
      simp [lowerUnary, writesFit_apply, apply_writeFits, UnaryOp.targetFits, UnaryOp.isStep]
  | _ =>
      simp only [lowerUnary]
      split_ifs with hnumber
      · rw [writesFit_apply, apply_writeFits, UnaryOp.targetFits, Ty.holds_number hnumber, Bool.and_true]
      · first | exact hbefore _ | exact hafter _

@[simp] theorem writesFit_lowerTernary : (lowerTernary test yes no).WritesFit ↔
    test.WritesFit ∧ yes.WritesFit ∧ no.WritesFit := by
  simp [lowerTernary]

end Expr

end TwinView.Code
