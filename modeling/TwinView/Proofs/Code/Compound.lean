import Mathlib.Tactic.SplitIfs
import TwinView.Code.Lowering

/-!
What a compound assignment stores. It is spelled out, or kept as one operator, and either way it should
compute what its operator computes of the same operands. This fails for sums alone: a sum joins texts as
soon as one operand is a text, and its compound assignment looks at the target only.
-/

namespace TwinView.Code.Expr

variable {op : Arith} {left right : Expr}

/-- What the compound assignment stores is the result of the operator: its value, up to parentheses, if
the assignment is spelled out, and otherwise what the operator makes of the operands that it is kept with. -/
def StoresResult (op : Arith) (left right : Expr) : Prop :=
  (∃ value parens, lowerBinary (.update op) left right = .binary .assign left value parens ∧
    value.setParens false = (lowerBinary (.arith op) left right).setParens false) ∨
  ∃ operand, lowerBinary (.update op) left right = operate (.update op) left operand ∧
    lowerBinary (.arith op) left right = operate (.arith op) left operand

theorem storesResult_of_assignment {l r : Expr}
    (hupdate : lowerBinary (.update op) left right = assignment (.arith op) left l r)
    (hop : lowerBinary (.arith op) left right = operate (.arith op) l r) : StoresResult op left right := by
  refine .inl ⟨(operate (.arith op) l r).withParens, true, hupdate, ?_⟩
  rw [hop]
  rfl

/-- A compound assignment that is spelled out stores one value only. -/
theorem stored_of_assignment {l r : Expr}
    (hupdate : lowerBinary (.update op) left right = assignment (.arith op) left l r)
    (h : StoresResult op left right) :
    operate (.arith op) l r = (lowerBinary (.arith op) left right).setParens false := by
  obtain ⟨value, parens, hvalue, hresult⟩ | ⟨operand, hkept, -⟩ := h
  · cases hupdate.symm.trans hvalue
    exact hresult
  · cases hupdate.symm.trans hkept

theorem lowerBinary_arith (hop : op ≠ .add) :
    lowerBinary (.arith op) left right = operate (.arith op) left.ensureNumber right.ensureNumber := by
  cases op with
  | add => exact absurd rfl hop
  | _ => rfl

theorem lowerBinary_update (hop : op ≠ .add) : lowerBinary (.update op) left right =
    if left.needsSpelling then assignment (.arith op) left left.ensureNumber right.ensureNumber
    else operate (.update op) left (right.ensureType left.resultType) := by
  cases op with
  | add => exact absurd rfl hop
  | _ => rfl

/-- A slot for numbers takes a value as it is only if the value is a number. -/
theorem ensureType_of_isNumber {slot : Ty} (h : slot.isNumber) (e : Expr) :
    e.ensureType slot = e.ensureNumber := by
  unfold ensureType ensureNumber
  rw [if_pos h]
  split_ifs with haccepts hnumber hnumber
  · rfl
  · refine absurd ?_ hnumber
    cases slot with
    | number => exact haccepts
    | int | long | double =>
        have heq : _ = e.resultType := of_decide_eq_true haccepts
        exact heq ▸ h
    | _ => cases h
  · rfl
  · rfl

theorem storesResult_of_ne_add (hop : op ≠ .add) : StoresResult op left right := by
  cases hspelled : left.needsSpelling with
  | true =>
      exact storesResult_of_assignment (by rw [lowerBinary_update hop, if_pos hspelled])
        (lowerBinary_arith hop)
  | false =>
      have hnumber : left.resultType.isNumber := by
        simp only [needsSpelling, Bool.or_eq_false_iff, Bool.not_eq_false'] at hspelled
        exact hspelled.2
      have hleft : left.ensureNumber = left := if_pos hnumber
      refine .inr ⟨right.ensureNumber, ?_, by rw [lowerBinary_arith hop, hleft]⟩
      rw [lowerBinary_update hop, if_neg (by simp [hspelled]), ensureType_of_isNumber hnumber]

theorem lowerBinary_sum : lowerBinary (.arith .add) left right =
    if left.concatenates || right.concatenates then operate (.arith .add) left.ensureText right.ensureText
    else operate (.arith .add) left.ensureNumber right.ensureNumber := rfl

theorem lowerBinary_addTo : lowerBinary (.update .add) left right =
    if left.concatenates then assignment (.arith .add) left left.ensureText right.ensureText
    else assignment (.arith .add) left left.ensureNumber right.ensureNumber := rfl

theorem isNumber_of_concatenates (h : right.concatenates) : right.resultType.isNumber = false := by
  cases htype : right.resultType.isNumber with
  | false => rfl
  | true =>
      rw [concatenates, Ty.toPrimitive, htype] at h
      simp only [Bool.or_true, Bool.true_or, if_true, Ty.isText, Ty.isNumber, decide_eq_true_eq] at h htype
      cases h.symm.trans htype

/-- What joins texts is turned into a number and into a text by different calls, if it is turned at all. -/
theorem ensureNumber_ne_ensureText (h : right.concatenates) : right.ensureNumber ≠ right.ensureText := by
  unfold ensureNumber ensureText
  rw [if_neg (by simp [isNumber_of_concatenates h])]
  split_ifs
  · intro heq
    have hsize := congrArg sizeOf heq
    simp only [invokeHelper, invokeOn, Expr.invoke.sizeOf_spec, List.cons.sizeOf_spec] at hsize
    omega
  · intro heq
    cases heq

theorem storesResult_add_iff :
    StoresResult .add left right ↔ (right.concatenates → left.concatenates) := by
  cases hleft : left.concatenates with
  | true =>
      refine iff_of_true (storesResult_of_assignment (l := left.ensureText) (r := right.ensureText) ?_ ?_)
        fun _ => rfl
      · rw [lowerBinary_addTo, if_pos hleft]
      · rw [lowerBinary_sum, hleft, Bool.true_or, if_pos rfl]
  | false =>
      have hupdate : lowerBinary (.update .add) left right =
          assignment (.arith .add) left left.ensureNumber right.ensureNumber := by
        rw [lowerBinary_addTo, if_neg (by simp [hleft])]
      cases hright : right.concatenates with
      | true =>
          refine iff_of_false (fun h => ?_) (by simp)
          have hstored := stored_of_assignment hupdate h
          rw [lowerBinary_sum, hright, Bool.or_true, if_pos rfl] at hstored
          have heq : right.ensureNumber = right.ensureText := by
            injection hstored
          exact ensureNumber_ne_ensureText hright heq
      | false =>
          refine iff_of_true (storesResult_of_assignment hupdate ?_) nofun
          rw [lowerBinary_sum, hleft, hright, Bool.or_self, if_neg (by simp)]

/-- A compound assignment stores the result of its operator, except that a text is added to a target
that joins no texts as a number. -/
theorem storesResult_iff (op : Arith) (left right : Expr) :
    StoresResult op left right ↔ (op = .add → right.concatenates → left.concatenates) := by
  by_cases hop : op = .add
  · subst hop
    rw [storesResult_add_iff]
    exact ⟨fun h _ => h, fun h => h rfl⟩
  · exact iff_of_true (storesResult_of_ne_add hop) fun h => absurd h hop

/-- The sum of a number and an object is a text, and adding the object to the number gives a number. -/
theorem not_storesResult_index :
    ¬ StoresResult .add (variableRef .int "index") (variableRef .object "data") := by
  rw [storesResult_add_iff]
  decide

end TwinView.Code.Expr
