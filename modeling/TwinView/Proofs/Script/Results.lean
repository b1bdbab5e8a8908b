import Mathlib.Tactic.SplitIfs
import TwinView.Proofs.Code.Statements
import TwinView.Proofs.Script.Forms

/-!
What the value of a compiled expression may be. A conditional yields one of its branches and an
assignment its right side, so the possible results of an expression are the leaves under those; the
static type tells something about all of them only if no conditional mixes plain values with others.
-/

namespace TwinView.Code

def Ty.isPlain (t : Ty) : Bool := t.isNumber || t.isBoolean

theorem Ty.isPlain_eq (t : Ty) :
    (t.isBoolean || t.isNumber || (t.isScalar && t ≠ .char)) = t.isPlain := by
  cases t <;> rfl

namespace Expr

def results : Expr → List Expr
  | .ternary _ yes no _ => yes.results ++ no.results
  | .binary .assign _ right _ => right.results
  | e => [e]

def allPlain (e : Expr) : Bool := e.results.all (·.resultType.isPlain)

/-- Whether a conditional on the way to the results yields plain values on one side only. -/
def mixes : Expr → Bool
  | .ternary _ yes no _ => yes.allPlain != no.allPlain || yes.mixes || no.mixes
  | .binary .assign _ right _ => right.mixes
  | _ => false

/-- Assignments on the way to the results store plain values in plain places. The object of an
access counts too: a conversion to text may take it out again. -/
def Settled : Expr → Prop
  | .ternary _ yes no _ => yes.Settled ∧ no.Settled
  | .binary .assign left right _ =>
    (left.resultType.isPlain → right.resultType.isPlain) ∧ right.Settled
  | .property target _ _ => target.resultType ≠ .void ∧ target.Settled
  | _ => True

theorem allPlain_ternary (test yes no : Expr) (p : Bool) :
    (Expr.ternary test yes no p).allPlain = (yes.allPlain && no.allPlain) := by
  simp [allPlain, results]

theorem allPlain_assign (left right : Expr) (p : Bool) :
    (Expr.binary .assign left right p).allPlain = right.allPlain := by
  simp [allPlain, results]

theorem isPlain_eitherType {first second : Ty} (h : (eitherType first second).isPlain) :
    first.isPlain ∨ second.isPlain := by
  unfold eitherType at h
  split at h
  · exact Or.inl h
  · exact Or.inr h

/-- If the static type is plain, a result that is not can only come from a conditional that mixes. -/
theorem allPlain_of_not_mixes (e : Expr) (hs : e.Settled) (ht : e.resultType.isPlain)
    (hm : e.mixes = false) : e.allPlain := by
  fun_induction mixes e with
  | case1 test yes no p ihy ihn =>
      simp only [Bool.or_eq_false_iff, bne_eq_false_iff_eq] at hm
      obtain ⟨⟨heq, hy⟩, hn⟩ := hm
      have hboth : yes.allPlain ∨ no.allPlain :=
        (isPlain_eitherType (by simpa only [resultType] using ht)).imp
          (fun h => ihy hs.1 h hy) (fun h => ihn hs.2 h hn)
      rw [allPlain_ternary]
      rcases hboth with h | h
      · rw [← heq, h, Bool.and_self]
      · rw [heq, h, Bool.and_self]
  | case2 left right p ih =>
      have hr : right.resultType.isPlain :=
        (isPlain_eitherType (by simpa only [resultType] using ht)).elim hs.1 id
      rw [allPlain_assign]
      exact ih hs.2 hr hm
  | case3 e hternary hassign =>
      have : e.results = [e] := by
        unfold results
        split
        · exact absurd rfl (hternary _ _ _ _)
        · exact absurd rfl (hassign _ _ _)
        · rfl
      simpa [allPlain, this] using ht

theorem not_mixes_of_allPlain (e : Expr) (h : e.allPlain) : e.mixes = false := by
  fun_induction mixes e with
  | case1 test yes no p ihy ihn =>
      rw [allPlain_ternary, Bool.and_eq_true] at h
      simp [h.1, h.2, ihy h.1, ihn h.2]
  | case2 left right p ih =>
      rw [allPlain_assign] at h
      exact ih h
  | case3 => rfl

theorem allPlain_iff (e : Expr) (hs : e.Settled) (ht : e.resultType.isPlain) :
    e.allPlain ↔ e.mixes = false :=
  ⟨not_mixes_of_allPlain e, allPlain_of_not_mixes e hs ht⟩

/-- What a script's expression becomes: it has a value, and its assignments are settled. -/
structure HasValue (e : Expr) : Prop where
  type : e.resultType ≠ .void
  settled : e.Settled

@[simp] theorem resultType_setParens (p : Bool) (e : Expr) :
    (e.setParens p).resultType = e.resultType := by
  cases e <;> rfl

theorem HasValue.setParens {e : Expr} (h : e.HasValue) (p : Bool) : (e.setParens p).HasValue := by
  refine ⟨by rw [resultType_setParens]; exact h.type, ?_⟩
  have hs := h.settled
  cases e with
  | binary op left right q => cases op <;> exact hs
  | _ => exact hs

theorem HasValue.propertyOf {target : Expr} (h : target.HasValue) (key : Expr) :
    (propertyOf target key).HasValue :=
  ⟨by simp [Expr.propertyOf, resultType], h.type, h.settled⟩

theorem HasValue.invoke {result : Ty} (target : Expr) (method : String) (args : List Expr)
    (h : result ≠ .void) : (invokeOn result target method args).HasValue := ⟨h, True.intro⟩

theorem HasValue.operate {op : BinaryOp} (h : op ≠ .assign) (left right : Expr) :
    (operate op left right).HasValue := by
  refine ⟨?_, ?_⟩
  · cases op with
    | arith op =>
        cases op with
        | add => simp only [Expr.operate, resultType, sumType]; split <;> simp
        | _ => simp [Expr.operate, resultType]
    | and | or => simp only [Expr.operate, resultType]; split <;> simp
    | update | compare => simp [Expr.operate, resultType]
    | assign => exact absurd rfl h
  · cases op with
    | assign => exact absurd rfl h
    | _ => exact True.intro

theorem HasValue.ensureText {e : Expr} (h : e.HasValue) : e.ensureText.HasValue := by
  unfold Expr.ensureText
  split
  · exact h
  · exact .invoke _ _ _ (by simp)

theorem HasValue.ensureType {e : Expr} (h : e.HasValue) (slot : Ty) : (e.ensureType slot).HasValue := by
  unfold Expr.ensureType ensureNumber Expr.ensureText ensureBoolean
  split_ifs
  all_goals first
    | exact h
    | exact .invoke _ _ _ (by simp)

theorem isPlain_ensureType {e : Expr} {slot : Ty} (h : slot.isPlain) :
    (ensureType slot e).resultType.isPlain := by
  have hcases : slot = .number ∨ slot = .int ∨ slot = .long ∨ slot = .double ∨ slot = .boolean := by
    cases slot <;> simp_all [Ty.isPlain, Ty.isNumber, Ty.isBoolean, Ty.kind]
  have hslot : slot.isNumber ∨ slot.isBoolean := by simpa [Ty.isPlain] using h
  unfold ensureType
  split_ifs with haccept hnumber htext hboolean
  · rcases hcases with rfl | rfl | rfl | rfl | rfl
    · simp [Ty.isPlain, show e.resultType.isNumber from haccept]
    all_goals
      have : e.resultType = _ := (of_decide_eq_true haccept).symm
      rw [this]
      rfl
  · unfold ensureNumber
    split_ifs with h
    · simp [Ty.isPlain, h]
    · rfl
  · rcases hcases with rfl | rfl | rfl | rfl | rfl <;> simp [Ty.isText, Ty.kind] at htext
  · unfold ensureBoolean
    split_ifs with h
    · simp [Ty.isPlain, h]
    · rfl
  · rcases hslot with h' | h'
    · exact absurd h' hnumber
    · exact absurd h' hboolean

theorem eitherType_ne_void {first second : Ty} (h₁ : first ≠ .void) (h₂ : second ≠ .void) :
    eitherType first second ≠ .void := by
  unfold eitherType
  split <;> assumption

theorem HasValue.assign {left right : Expr} (hl : left.HasValue) (hr : right.HasValue)
    (h : left.resultType.isPlain → right.resultType.isPlain) :
    (Expr.operate .assign left right).HasValue :=
  ⟨eitherType_ne_void hl.type hr.type, h, hr.settled⟩

theorem isNumber_ensureNumber (e : Expr) : e.ensureNumber.resultType.isNumber := by
  unfold ensureNumber
  split_ifs with h
  · exact h
  · rfl

theorem isPlain_of_isNumber {t : Ty} (h : t.isNumber) : t.isPlain := by
  rw [Ty.isPlain, h, Bool.true_or]

theorem HasValue.constant (value : Primitive) (p : Bool) : (Expr.prim value p).HasValue :=
  ⟨by cases value <;> simp [resultType, Primitive.type], True.intro⟩

/-- The right side of a spelled out assignment is a number, or a text if its target is no number. -/
theorem HasValue.assignment {op : Arith} {target left right : Expr} (ht : target.HasValue)
    (h : target.resultType.isPlain → (Expr.operate (.arith op) left right).resultType.isNumber) :
    (Expr.assignment (.arith op) target left right).HasValue := by
  refine HasValue.setParens (.assign ht (HasValue.setParens (.operate (by simp) _ _) _) ?_) _
  intro hp
  rw [resultType_setParens]
  exact isPlain_of_isNumber (h hp)

theorem isNumber_operate {op : Arith} {left right : Expr} (hl : left.resultType.isNumber)
    (hr : right.resultType.isNumber) : (operate (.arith op) left right).resultType.isNumber := by
  have htext (t : Ty) (h : t.isNumber) : t.isText = false := by
    cases t <;> simp_all [Ty.isNumber, Ty.isText, Ty.kind]
  cases op <;> simp [operate, resultType, sumType, htext _ hl, htext _ hr] <;> rfl

theorem HasValue.stepBefore {e : Expr} (h : e.HasValue) (op : Arith) :
    (Expr.stepBefore op e).HasValue := by
  refine .assignment h fun _ => isNumber_operate (isNumber_ensureNumber e) ?_
  simp [int, const, resultType, Primitive.type, Ty.isNumber, Ty.kind]

theorem not_isPlain_of_concatenates {e : Expr} (h : e.concatenates) : ¬ e.resultType.isPlain := by
  intro hp
  unfold concatenates at h
  cases ht : e.resultType <;>
    simp_all [Ty.toPrimitive, Ty.isPlain, Ty.isNumber, Ty.isBoolean, Ty.isText, Ty.isScalar, Ty.kind]

theorem HasValue.lowerBinary {left right : Expr} (op : BinaryOp) (hl : left.HasValue)
    (hr : right.HasValue) : (Expr.lowerBinary op left right).HasValue := by
  have hnumber (base : Arith) :
      (Expr.assignment (.arith base) left left.ensureNumber right.ensureNumber).HasValue :=
    .assignment hl fun _ => isNumber_operate (isNumber_ensureNumber left) (isNumber_ensureNumber right)
  cases op with
  | assign => exact .assign hl (hr.ensureType _) isPlain_ensureType
  | arith op =>
      unfold Expr.lowerBinary
      cases op with
      | add => dsimp only; split_ifs <;> exact .operate (by simp) _ _
      | _ => exact .operate (by simp) _ _
  | update op =>
      unfold Expr.lowerBinary
      cases op with
      | add =>
          dsimp only
          split_ifs with h
          · exact .assignment hl fun hp => absurd hp (not_isPlain_of_concatenates h)
          · exact hnumber _
      | _ =>
          dsimp only
          split_ifs
          · exact hnumber _
          · exact .operate (by simp) _ _
  | and | or =>
      unfold Expr.lowerBinary
      dsimp only
      split_ifs
      · exact .operate (by simp) _ _
      · exact .invoke _ _ _ (by simp)
  | compare op =>
      unfold Expr.lowerBinary
      cases op with
      | identical =>
          dsimp only
          split_ifs
          · exact .operate (by simp) _ _
          · exact .invoke _ _ _ (by simp)
      | notIdentical =>
          dsimp only
          split_ifs
          · exact .operate (by simp) _ _
          · exact ⟨by simp [Expr.notEqual, apply, resultType], True.intro⟩
      | equal => exact .invoke _ _ _ (by simp)
      | notEqual => exact ⟨by simp [Expr.coerceNotEqual, apply, resultType], True.intro⟩
      | _ => exact .operate (by simp) _ _

theorem HasValue.apply (op : UnaryOp) (e : Expr) : (Expr.apply op e).HasValue := by
  refine ⟨?_, True.intro⟩
  unfold Expr.apply resultType
  split <;> simp

theorem HasValue.lowerUnary {e : Expr} (op : UnaryOp) (h : e.HasValue) :
    (Expr.lowerUnary op e).HasValue := by
  unfold Expr.lowerUnary
  cases op <;> dsimp only <;> (try split_ifs)
  all_goals first
    | exact .apply _ _
    | exact h.stepBefore _
    | exact .invoke _ _ _ (by simp)

theorem HasValue.lowerTernary {yes no : Expr} (test : Expr) (hy : yes.HasValue) (hn : no.HasValue) :
    (Expr.lowerTernary test yes no).HasValue :=
  ⟨eitherType_ne_void hy.type hn.type, hy.settled, hn.settled⟩

end Expr

end TwinView.Code

namespace TwinView.Script

open Code.Expr (HasValue)
open Code.Stmt (forall_allOf_append forall_allOf_expr forall_allOf_ret forall_allOf_loop forall_allOf_step)

theorem hasValue_of_methodCall? {target e : Code.Expr} {method : String} {args : List Code.Expr}
    (ht : target.HasValue) (h : methodCall? target method args = some e) : e.HasValue := by
  cases callCode_of_methodCall? h with
  | toString => exact ht.ensureText
  | substring | substr => exact .invoke _ _ _ (by simp)

theorem hasValue_of_typeTest? {target e : Code.Expr} {name : String}
    (h : typeTest? target name = some e) : e.HasValue := by
  obtain ⟨method, -, rfl⟩ := typeTest?_eq_some h
  exact ⟨by simp [typeTestCode, Code.Expr.either, Code.Expr.resultType, Code.Expr.eitherType,
    Code.Expr.bool, Code.Expr.const, Code.Primitive.type], True.intro, True.intro⟩

theorem hasValue_of_nameCode {e : Code.Expr} (h : NameCode e) : e.HasValue := by
  cases h with
  | undefined | nan | infinity => exact .constant _ _
  | variableRef h given => exact ⟨by simpa [Code.Expr.variableRef, Code.Expr.resultType] using h, True.intro⟩
  | extra name => exact ⟨by simp [Code.Expr.resultType], True.intro⟩

theorem hasValue_of_calledMethod? {callee object : Code.Expr} {method : String}
    (hc : callee.HasValue) (h : calledMethod? callee = some (object, method)) : object.HasValue := by
  obtain ⟨_, _, _, rfl, -⟩ := calledMethod?_eq_some h
  exact ⟨hc.settled.1, hc.settled.2⟩

theorem hasValue_array (size : Nat) (items : List Code.Expr) :
    (Code.Expr.array .object size items false).HasValue :=
  ⟨by simp [Code.Expr.resultType], True.intro⟩

theorem carries_hasValue : Carries (fun _ => True) fun _ c => c.HasValue where
  name usage _ name _ := ((nameCode_compileName usage name).mono fun _ => hasValue_of_nameCode).within
  literal _ := .constant _ _
  parens _ h := h.setParens _
  member _ _ h := h.propertyOf _
  index _ h _ := h.propertyOf _
  call _ _ h hm _ hc := hasValue_of_methodCall? (hasValue_of_calledMethod? h hm) hc
  newSize _ _ size _ := hasValue_array size []
  newItems _ _ _ := hasValue_array 0 _
  unary _ op _ h := h.lowerUnary op
  typeOf _ _ := .invoke _ _ _ (by simp)
  binary _ op _ hl hr := hl.lowerBinary op hr
  isIn _ _ _ := .invoke _ _ _ (by simp)
  instanceOf _ _ _ hc := hasValue_of_typeTest? hc
  cond _ _ hy hn := .lowerTernary _ hy hn
  object _ _ := .invoke _ _ _ (by simp)
  array _ _ := hasValue_array 0 _

theorem compileExpr_gives (e : Expr) : Gives (compileExpr e) HasValue := carries_hasValue.gives_compileExpr e

/-- A statement of a compiled script: what it computes or returns has a value. -/
def IsScript : Code.Stmt → Prop
  | .expr e origin => e.HasValue ∧ origin = .plain
  | .ret (some e) => e.HasValue
  | _ => True

def AllScript (body : List Code.Stmt) : Prop := ∀ s ∈ Code.Stmt.allOf body, IsScript s

theorem AllScript.append {a b : List Code.Stmt} (ha : AllScript a) (hb : AllScript b) :
    AllScript (a ++ b) := forall_allOf_append.2 ⟨ha, hb⟩

theorem allScript_expr {e : Code.Expr} (h : e.HasValue) : AllScript [.expr e] :=
  forall_allOf_expr.2 ⟨h, rfl⟩

theorem allScript_ret {e : Code.Expr} (h : e.HasValue) : AllScript [.ret (some e)] :=
  forall_allOf_ret.2 h

theorem allScript_declStmt (ds : List Code.VarDecl) : AllScript [declStmt ds] := by
  intro s hs
  unfold declStmt at hs
  split at hs <;> obtain rfl := List.mem_singleton.1 hs <;> exact True.intro

theorem allScript_nil : AllScript [] := by simp [AllScript, Code.Stmt.allOf]

theorem allScript_head {init : Option Stmt} {head : Option Code.Stmt}
    (h : HeadCode (fun _ c => c.HasValue) init head) : AllScript head.toList := by
  cases h with
  | expr _ h => exact allScript_expr h
  | var => exact allScript_declStmt _
  | none => exact allScript_nil

theorem allScript_loop {init : Option Code.Stmt} {test : Code.Expr} {step : Option Code.Expr}
    {body : List Code.Stmt} (hi : AllScript init.toList) (hs : ∀ e ∈ step, e.HasValue)
    (hb : AllScript body) : AllScript [.loop init test (step.map fun e => .expr e) body] :=
  forall_allOf_loop.2 ⟨True.intro, hi, forall_allOf_step.2 fun e he => ⟨hs e he, rfl⟩, hb⟩

theorem carries_allScript : CarriesStmts (fun _ c => c.HasValue) (fun _ code => AllScript code)
    fun _ code => AllScript code where
  expr _ h := allScript_expr h
  var _ _ := allScript_declStmt _
  retNone _ := allScript_ret (.constant _ _)
  retSome _ h := allScript_ret h
  block _ h := h
  loop _ _ hi _ hs hb := allScript_loop (allScript_head hi) (forall_of_rel hs) hb
  empty _ := allScript_nil
  nil := allScript_nil
  cons h hr := h.append hr

/-- The methods of a script take the parameters of rendering and hold its statements. -/
structure IsCode (m : Code.Method) : Prop where
  returns : m.returns ≠ .void
  params : m.params = Code.renderParams
  body : AllScript m.body

theorem isCode_of_methodCode {f : Function} {m : Code.Method}
    (h : MethodCode (fun _ code => AllScript code) f m) : IsCode m where
  returns := by simp [h.returns]
  params := h.params
  body := by
    obtain ⟨code, hcode, hm | hm⟩ := h.body
    · rwa [hm]
    · rw [hm]
      exact hcode.append (allScript_ret (.constant _ _))

theorem compileProgram_gives (program : List Stmt) :
    Gives (compileProgram program) fun ms => ∀ m ∈ ms, IsCode m :=
  (carries_allScript.gives_compileProgram compileExpr_gives program).mono fun _ h =>
    h.forall_mem fun _ _ hm => isCode_of_methodCode hm

theorem compile_isCode {names : Code.Names} {source : String} {t : Compiled}
    (h : (compile names source).1 = .ok t) : ∀ m ∈ t.methods, IsCode m := by
  obtain ⟨program, s, -, hy, -⟩ := yields_of_compile h
  exact compileProgram_gives program _ _ _ hy

theorem IsCode.hasValue_of_inline? {m : Code.Method} {e : Code.Expr} (h : IsCode m)
    (he : m.inline? = some e) : e.HasValue := by
  unfold Code.Method.inline? at he
  split at he
  · next p _ _ _ _ value hparams hbody =>
      split at he
      · subst he
        refine h.body (.ret (some e)) ?_
        rw [hbody]
        simp [Code.Stmt.allOf, Code.Stmt.withInner]
      · cases he
  · cases he

end TwinView.Script
