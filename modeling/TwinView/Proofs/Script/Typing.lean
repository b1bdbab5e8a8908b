import Mathlib.Tactic.SplitIfs
import TwinView.Proofs.Code.Closed
import TwinView.Proofs.Java.Scripts

/-!
Types of the operands in compiled scripts. Lowering coerces an operand unless its static type fits
already, so every operator that remains has operands of the type it works on, and an operator that could
be lost in a setter is spelled out. An expression is compiled with a few means only, and a property that
all of them keep is one of every compiled expression.
-/

namespace TwinView.Code

variable {e target left right test yes no : Expr}

/-- Whether the operands of a binary operator have the types that it works on. -/
def BinaryOp.fits (op : BinaryOp) (left right : Expr) : Bool :=
  let numbers := left.resultType.isNumber && right.resultType.isNumber
  match op with
  | .assign => true
  | .arith .add => (left.resultType.isText && right.resultType.isText) || numbers
  | .arith _ => numbers
  | .update _ => numbers && !left.isStored
  | .and | .or => left.resultType.isBoolean && right.resultType.isBoolean
  | .compare .identical | .compare .notIdentical => left.isNullish || right.isNullish
  | .compare .equal | .compare .notEqual => false
  | .compare _ => numbers

def UnaryOp.fits (op : UnaryOp) (operand : Expr) : Bool :=
  if op = .not then operand.resultType.isBoolean else operand.resultType.isNumber

namespace Expr

/-- Whether the operands of the outermost operator have the types that it works on. -/
def operandsFit : Expr → Bool
  | .binary op left right _ => op.fits left right
  | .unary op operand _ => op.fits operand
  | .ternary test _ _ _ => test.resultType.isBoolean
  | _ => true

/-- Every operator in the expression has operands of the types that it works on. -/
abbrev Typed (e : Expr) : Prop := e.Every fun e => e.operandsFit

theorem Typed.setParens (h : e.Typed) (p : Bool) : (e.setParens p).Typed := by
  cases e <;> exact h

theorem everyOf_typed {args : List Expr} (h : ∀ e ∈ args, e.Typed) :
    EveryOf (fun e => e.operandsFit) args := by
  induction args with
  | nil => exact True.intro
  | cons e rest ih =>
      obtain ⟨he, hrest⟩ := List.forall_mem_cons.1 h
      exact ⟨he, ih hrest⟩

theorem typed_invokeOn {args : List Expr} (result : Ty) (method : String) (ht : target.Typed)
    (ha : ∀ e ∈ args, e.Typed) : (invokeOn result target method args).Typed :=
  ⟨rfl, ht, everyOf_typed ha⟩

theorem typed_self (result : Ty) (method : String) (hl : left.Typed) (hr : right.Typed) :
    (invokeSelf result method [left, right]).Typed :=
  typed_invokeOn result method (show self.Typed from rfl) (by simpa using ⟨hl, hr⟩)

theorem typed_helper (result : Ty) (method : String) (h : e.Typed) :
    (invokeHelper result method [e]).Typed :=
  typed_invokeOn result method (show dataHelper.Typed from rfl) (by simpa using h)

theorem typed_operate {op : BinaryOp} (hop : op.fits left right) (hl : left.Typed) (hr : right.Typed) :
    (operate op left right).Typed := ⟨hop, hl, hr⟩

theorem typed_apply {op : UnaryOp} (hop : op.fits e) (h : e.Typed) : (apply op e).Typed := ⟨hop, h⟩

theorem isText_ensureText (e : Expr) : e.ensureText.resultType.isText := by
  unfold ensureText
  split_ifs with h
  · exact h
  · rfl

theorem isNumber_ensureType {slot : Ty} (h : slot.isNumber) (e : Expr) :
    (e.ensureType slot).resultType.isNumber := by
  unfold ensureType
  split_ifs with haccepts
  · cases slot with
    | number => exact haccepts
    | int | long | double =>
        have heq : _ = e.resultType := of_decide_eq_true haccepts
        exact heq ▸ h
    | _ => cases h
  · exact isNumber_ensureNumber e

theorem Typed.ensureBoolean (h : e.Typed) : e.ensureBoolean.Typed := by
  unfold Expr.ensureBoolean
  split_ifs
  · exact h
  · exact typed_helper _ _ h

theorem Typed.ensureNumber (h : e.Typed) : e.ensureNumber.Typed := by
  unfold Expr.ensureNumber
  split_ifs
  · exact h
  · exact typed_helper _ _ h

theorem Typed.ensureText (h : e.Typed) : e.ensureText.Typed := by
  unfold Expr.ensureText
  split_ifs
  · exact h
  · exact typed_helper _ _ h

theorem Typed.ensureType (h : e.Typed) (slot : Ty) : (e.ensureType slot).Typed := by
  unfold Expr.ensureType
  split_ifs
  · exact h
  · exact h.ensureNumber
  · exact h.ensureText
  · exact h.ensureBoolean
  · exact h

theorem fits_arith (op : Arith) (hl : left.resultType.isNumber) (hr : right.resultType.isNumber) :
    BinaryOp.fits (.arith op) left right := by
  cases op <;> simp [BinaryOp.fits, hl, hr]

theorem typed_numbers {op : BinaryOp} (h : op.fits left.ensureNumber right.ensureNumber) (hl : left.Typed)
    (hr : right.Typed) : (operate op left.ensureNumber right.ensureNumber).Typed :=
  typed_operate h hl.ensureNumber hr.ensureNumber

theorem Typed.assignment {op : BinaryOp} (hop : op.fits left right) (ht : target.Typed)
    (hl : left.Typed) (hr : right.Typed) : (Expr.assignment op target left right).Typed :=
  Typed.setParens (typed_operate rfl ht (Typed.setParens (typed_operate hop hl hr) _)) _

theorem Typed.stepBefore (h : e.Typed) (op : Arith) : (Expr.stepBefore op e).Typed :=
  .assignment (fits_arith op (isNumber_ensureNumber e) rfl) h h.ensureNumber rfl

theorem Typed.stepAfter (h : e.Typed) (op : Arith) : (Expr.stepAfter op e).Typed :=
  typed_self _ _ h.ensureNumber (h.stepBefore op)

theorem typed_notSelf (method : String) (hl : left.Typed) (hr : right.Typed) :
    (apply .not (invokeSelf .boolean method [left, right])).Typed :=
  typed_apply rfl (typed_self _ _ hl hr)

/-- Where the operator stays one, the branch of lowering that keeps it has seen the types. -/
theorem Typed.lowerBinary (op : BinaryOp) (hl : left.Typed) (hr : right.Typed) :
    (Expr.lowerBinary op left right).Typed := by
  have hnumbers (base : Arith) : BinaryOp.fits (.arith base) left.ensureNumber right.ensureNumber :=
    fits_arith base (isNumber_ensureNumber left) (isNumber_ensureNumber right)
  have htexts : BinaryOp.fits (.arith .add) left.ensureText right.ensureText := by
    simp [BinaryOp.fits, isText_ensureText]
  have hspelled (base : Arith) :
      (Expr.assignment (.arith base) left left.ensureNumber right.ensureNumber).Typed :=
    .assignment (hnumbers base) hl hl.ensureNumber hr.ensureNumber
  unfold Expr.lowerBinary
  split
  · split_ifs with h
    · exact typed_operate h hl hr
    · exact typed_self _ _ hl hr
  · split_ifs with h
    · exact typed_operate h hl hr
    · exact typed_notSelf _ hl hr
  · exact typed_self _ _ hl hr
  · exact typed_notSelf _ hl hr
  · split_ifs
    · exact typed_operate htexts hl.ensureText hr.ensureText
    · exact typed_numbers (hnumbers _) hl hr
  · split_ifs
    · exact .assignment htexts hl hl.ensureText hr.ensureText
    · exact hspelled _
  · exact typed_operate rfl hl (hr.ensureType _)
  · split_ifs with h
    · exact typed_operate h hl hr
    · exact typed_self _ _ hl hr
  · split_ifs with h
    · exact typed_operate h hl hr
    · exact typed_self _ _ hl hr
  · split_ifs with h
    · exact hspelled _
    · simp only [needsSpelling, Bool.or_eq_true, Bool.not_eq_true', not_or, Bool.not_eq_false,
        Bool.not_eq_true] at h
      refine typed_operate ?_ hl (hr.ensureType _)
      simp [BinaryOp.fits, h.1, h.2, isNumber_ensureType h.2]
  · exact typed_numbers (hnumbers _) hl hr
  · next op hi hni he hne =>
      refine typed_numbers ?_ hl hr
      cases op with
      | identical => exact absurd rfl hi
      | notIdentical => exact absurd rfl hni
      | equal => exact absurd rfl he
      | notEqual => exact absurd rfl hne
      | _ => simp [BinaryOp.fits, isNumber_ensureNumber]

theorem Typed.lowerUnary (op : UnaryOp) (h : e.Typed) : (Expr.lowerUnary op e).Typed := by
  cases op with
  | not => exact typed_apply (Java.isBoolean_ensureBoolean e) h.ensureBoolean
  | bitNot | negate | plus => exact typed_apply (isNumber_ensureNumber e) h.ensureNumber
  | preIncrement | preDecrement =>
      unfold Expr.lowerUnary
      dsimp only
      split_ifs with hn
      · exact typed_apply hn h
      · exact h.stepBefore _
  | postIncrement | postDecrement =>
      unfold Expr.lowerUnary
      dsimp only
      split_ifs with hn
      · exact typed_apply hn h
      · exact h.stepAfter _

theorem Typed.lowerTernary (ht : test.Typed) (hy : yes.Typed) (hn : no.Typed) :
    (Expr.lowerTernary test yes no).Typed :=
  ⟨Java.isBoolean_ensureBoolean test, ht.ensureBoolean, hy, hn⟩

end Expr

end TwinView.Code

namespace TwinView.Script

open Java (EveryIn EveryExpr everyIn_nil everyIn_expr everyIn_ret everyIn_declStmt everyIn_loop)

/-- A property of expressions that is kept by each means of compiling one. -/
structure Builds (Q : Code.Expr → Prop) : Prop where
  const value : Q (.const value)
  variableRef type name : Q (.variableRef type name)
  extra name : Q (.extra name false)
  self : Q .self
  dataHelper : Q .dataHelper
  withParens {e} : Q e → Q e.withParens
  propertyOf {target key} : Q target → Q key → Q (.propertyOf target key)
  /-- A called method is a property that is taken apart again. -/
  target {target key p} : Q (.property target key p) → Q target
  invokeOn result {target} method {args} :
    Q target → (∀ e ∈ args, Q e) → Q (.invokeOn result target method args)
  ensureText {e} : Q e → Q e.ensureText
  array size {items} : (∀ e ∈ items, Q e) → Q (.array .object size items false)
  isNull {e} : Q e → Q (Code.Expr.operate (.compare .identical) e .null)
  either {test yes no} : test.resultType.isBoolean → Q test → Q yes → Q no → Q (.either test yes no)
  lowerBinary op {left right} : Q left → Q right → Q (.lowerBinary op left right)
  lowerUnary op {e} : Q e → Q (.lowerUnary op e)
  lowerTernary {test yes no} : Q test → Q yes → Q no → Q (.lowerTernary test yes no)

namespace Builds

variable {Q : Code.Expr → Prop}

theorem helper (h : Builds Q) (result : Code.Ty) (method : String) {args : List Code.Expr}
    (ha : ∀ e ∈ args, Q e) : Q (.invokeHelper result method args) :=
  h.invokeOn result method h.dataHelper ha

theorem of_calledMethod? (h : Builds Q) {callee object : Code.Expr} {method : String} (hc : Q callee)
    (hm : calledMethod? callee = some (object, method)) : Q object := by
  obtain ⟨_, _, _, rfl, -⟩ := calledMethod?_eq_some hm
  exact h.target hc

theorem of_methodCall? (h : Builds Q) {target e : Code.Expr} {method : String} {args : List Code.Expr}
    (ht : Q target) (ha : ∀ e ∈ args, Q e) (he : methodCall? target method args = some e) : Q e := by
  cases callCode_of_methodCall? he with
  | toString => exact h.ensureText ht
  | substring => exact h.invokeOn _ _ (h.ensureText ht) ha
  | substr =>
      refine h.invokeOn _ _ (h.ensureText ht) ?_
      unfold withEnd
      split
      · next start length rest =>
          simp only [List.forall_mem_cons] at ha ⊢
          exact ⟨ha.1, h.lowerBinary _ ha.1 ha.2.1, ha.2.2⟩
      · exact ha

theorem of_typeTest? (h : Builds Q) {target e : Code.Expr} {name : String} (ht : Q target)
    (he : typeTest? target name = some e) : Q e := by
  obtain ⟨method, -, rfl⟩ := typeTest?_eq_some he
  refine h.either rfl (h.withParens (h.isNull ht)) (h.const _) (h.helper _ _ ?_)
  simpa using h.invokeOn _ _ ht (by simp)

theorem of_nameCode (h : Builds Q) {c : Code.Expr} (hc : NameCode c) : Q c := by
  cases hc with
  | undefined | nan | infinity => exact h.const _
  | variableRef _ given => exact h.variableRef _ given
  | extra name => exact h.extra name

theorem carries (h : Builds Q) : Carries (fun _ => True) fun _ c => Q c where
  name usage _ name _ := ((nameCode_compileName usage name).mono fun _ => h.of_nameCode).within
  literal _ := h.const _
  parens _ hc := h.withParens hc
  member _ _ hc := h.propertyOf hc (h.const _)
  index _ hc hk := h.propertyOf hc hk
  call _ _ ht hm ha hc := h.of_methodCall? (h.of_calledMethod? ht hm) (forall_of_forall₂ ha) hc
  newSize _ _ size _ := h.array size (by simp)
  newItems _ _ ha := h.array 0 (forall_of_forall₂ ha)
  unary _ op _ hc := h.lowerUnary op hc
  typeOf _ hc := h.helper _ _ (by simpa using hc)
  binary _ op _ hl hr := h.lowerBinary op hl hr
  isIn _ hk ht := h.helper _ _ (by simpa using ⟨ht, hk⟩)
  instanceOf _ _ ht hc := h.of_typeTest? ht hc
  cond _ ht hy hn := h.lowerTernary ht hy hn
  object _ hp := h.helper _ _ (forall_of_eachValue h.const hp)
  array _ hi := h.array 0 (forall_of_forall₂ hi)

theorem gives_compileExpr (h : Builds Q) (e : Expr) : Gives (compileExpr e) Q :=
  h.carries.gives_compileExpr e

variable {P : Code.Expr → Prop}

theorem forall_inits {ds : List Decl} {cs : List Code.VarDecl}
    (h : List.Forall₂ (DeclCode fun _ c => Q c) ds cs) : ∀ d ∈ cs, ∀ c ∈ d.init, Q c := by
  induction h with
  | nil => simp
  | cons h _ ih => exact List.forall_mem_cons.2 ⟨forall_of_rel h, ih⟩

theorem everyIn_head {init : Option Stmt} {head : Option Code.Stmt}
    (h : HeadCode (fun _ c => c.Every P) init head) : EveryIn P head.toList := by
  cases h with
  | expr _ h => exact everyIn_expr h _
  | var _ h => exact everyIn_declStmt (forall_inits h)
  | none => exact everyIn_nil

theorem of_testCode (h : Builds Q) {test : Option Expr} {c : Code.Expr}
    (hc : TestCode (fun _ c => Q c) test c) : Q c := by
  cases hc with
  | none => exact h.const _
  | some hc => exact hc

theorem carriesStmts (h : Builds (·.Every P)) : CarriesStmts (fun _ c => c.Every P)
    (fun _ code => EveryIn P code) fun _ code => EveryIn P code where
  expr _ he := everyIn_expr he _
  var _ hd := everyIn_declStmt (forall_inits hd)
  retNone _ := everyIn_ret (h.const _)
  retSome _ he := everyIn_ret he
  block _ hb := hb
  loop _ _ hi ht hs hb := everyIn_loop (everyIn_head hi) (h.of_testCode ht) (forall_of_rel hs) hb
  empty _ := everyIn_nil
  nil := everyIn_nil
  cons hs hr := hs.append hr

theorem gives_compileProgram (h : Builds (·.Every P)) (program : List Stmt) :
    Gives (compileProgram program) fun ms => ∀ m ∈ ms, EveryIn P m.body := by
  refine (h.carriesStmts.gives_compileProgram h.gives_compileExpr program).mono fun _ hms => ?_
  refine hms.forall_mem fun f m hm => ?_
  obtain ⟨code, hcode, hbody | hbody⟩ := hm.body
  · rwa [hbody]
  · rw [hbody]
    exact hcode.append (everyIn_ret (h.const _))

theorem everyExpr (h : Builds (·.Every P)) {names : Code.Names} {source : String} {t : Compiled}
    (ht : (compile names source).1 = .ok t) : EveryExpr P t := by
  obtain ⟨program, _, -, hy, -⟩ := yields_of_compile ht
  exact h.gives_compileProgram program _ _ _ hy

end Builds

open Code.Expr in
theorem builds_typed : Builds Code.Expr.Typed where
  const _ := rfl
  variableRef _ _ := rfl
  extra _ := rfl
  self := rfl
  dataHelper := rfl
  withParens h := h.setParens true
  propertyOf ht hk := ⟨rfl, ht, hk⟩
  target h := h.2.1
  invokeOn result _ method _ ht ha := typed_invokeOn result method ht ha
  ensureText h := h.ensureText
  array _ _ h := ⟨rfl, everyOf_typed h⟩
  isNull h := typed_operate (by simp [Code.BinaryOp.fits, isNullish, null, const, primitive?,
    Code.Primitive.isNullish]) h rfl
  either hb ht hy hn := ⟨hb, ht, hy, hn⟩
  lowerBinary op _ _ hl hr := hl.lowerBinary op hr
  lowerUnary op _ h := h.lowerUnary op
  lowerTernary ht hy hn := ht.lowerTernary hy hn

/-- Whether the expression is written as the call of a setter, which has no place for an operator. -/
def callsSetter : Code.Expr → Bool
  | .binary op left _ _ => op.isAssignment && left.isStored
  | _ => false

def isPlainAssignment : Code.Expr → Bool
  | .binary .assign _ _ _ => true
  | _ => false

theorem isPlainAssignment_of_callsSetter {e : Code.Expr} (h : e.operandsFit) (hs : callsSetter e) :
    isPlainAssignment e := by
  cases e with
  | binary op left right p =>
      cases op with
      | assign => rfl
      | update op =>
          simp only [Code.Expr.operandsFit, Code.BinaryOp.fits, callsSetter, Bool.and_eq_true,
            Bool.not_eq_true'] at h hs
          exact absurd hs.2 (by simp [h.2])
      | _ => cases hs
  | _ => cases hs

/-- In a compiled script every operator has operands of the types that it works on, no equality with
coercion is left, and what is written as the call of a setter is a plain assignment. -/
theorem everyExpr_operandsFit {names : Code.Names} {source : String} {t : Compiled}
    (h : (compile names source).1 = .ok t) :
    EveryExpr (fun e => e.operandsFit ∧ (callsSetter e → isPlainAssignment e)) t := by
  intro m hm st hst e he
  exact (builds_typed.everyExpr h m hm st hst e he).mono fun e h =>
    ⟨h, isPlainAssignment_of_callsSetter h⟩

/-- Operators on operands that fit and on others, and a compound assignment that only a setter can make. -/
def operatorsSource : String :=
  "function(){data[index++] += key; return !data && x != count ? -index : data instanceof Array;}"

theorem everyExpr_operandsFit_mixed :
    ∃ t, (compile {} operatorsSource).1 = .ok t ∧ t.methods.length = 1 ∧
      EveryExpr (fun e => e.operandsFit ∧ (callsSetter e → isPlainAssignment e)) t := by
  have hok : (compile {} operatorsSource).1.toOption.any (fun t => t.methods.length = 1) := by
    decide +kernel
  obtain ⟨t, h, hone⟩ := exists_ok_of_any hok
  exact ⟨t, h, of_decide_eq_true hone, everyExpr_operandsFit h⟩

end TwinView.Script
