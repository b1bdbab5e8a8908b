import Mathlib.Data.Multiset.Replicate
import Mathlib.Data.Multiset.ZeroCons
import Mathlib.Algebra.BigOperators.Group.Multiset.Basic
import TwinView.Proofs.Code.Writes
import TwinView.Proofs.Script.Faces

/-!
How often the effects of a script happen in its code. Lowering copies operands at a few places: the
target of a compound assignment or of a step that is spelled out, the value whose type is tested, and
the start of a `substr` with a length; and it drops the arguments of `toString`. An effect in such an
operand has as many nodes as the operand has copies, and every other effect has exactly one.
-/

namespace TwinView.Code

def bodyWrites (body : List Stmt) : List Write :=
  (Stmt.allOf body).flatMap fun st => Expr.allWrites (Java.exprs st)

theorem bodyWrites_append (a b : List Stmt) : bodyWrites (a ++ b) = bodyWrites a ++ bodyWrites b := by
  simp [bodyWrites]

theorem bodyWrites_expr (e : Expr) (origin : Origin) : bodyWrites [.expr e origin] = e.writes := by
  simp [bodyWrites, Stmt.allOf, Stmt.withInner, Java.exprs, Expr.allWrites]

theorem bodyWrites_ret (e : Expr) : bodyWrites [.ret (some e)] = e.writes := by
  simp [bodyWrites, Stmt.allOf, Stmt.withInner, Java.exprs, Expr.allWrites]

theorem allWrites_append (a b : List Expr) :
    Expr.allWrites (a ++ b) = Expr.allWrites a ++ Expr.allWrites b := by
  induction a with
  | nil => rfl
  | cons e rest ih => simp [Expr.allWrites, ih]

def declWrites (ds : List VarDecl) : List Write := ds.flatMap fun d => Expr.allWrites d.init.toList

theorem bodyWrites_declStmt (ds : List VarDecl) : bodyWrites [Script.declStmt ds] = declWrites ds := by
  have hvars (ds : List VarDecl) :
      Expr.allWrites (ds.flatMap fun d => d.init.toList) = declWrites ds := by
    induction ds with
    | nil => rfl
    | cons d rest ih => simp [allWrites_append, ih, declWrites]
  unfold Script.declStmt
  split
  · simp [bodyWrites, Stmt.allOf, Stmt.withInner, Java.exprs, declWrites]
  · simp [bodyWrites, Stmt.allOf, Stmt.withInner, Java.exprs, hvars]

theorem bodyWrites_loop (init : Option Stmt) (test : Expr) (step : Option Expr) (body : List Stmt) :
    bodyWrites [.loop init test (step.map fun e => .expr e) body] =
      test.writes ++ (bodyWrites init.toList ++ (Expr.allWrites step.toList ++ bodyWrites body)) := by
  cases init <;> cases step <;>
    simp [bodyWrites, Stmt.allOf, Stmt.allOfOption, Stmt.withInner, Java.exprs, Expr.allWrites]

end TwinView.Code

namespace TwinView.Script

open Code (Write bodyWrites)

def Compiled.nodes (t : Compiled) : List Write := t.methods.flatMap fun m => bodyWrites m.body

def times (k : Nat) (effects : List (Expr × Nat)) : List (Expr × Nat) :=
  effects.map fun (e, n) => (e, k * n)

def stepCopies (op : Code.UnaryOp) (operand : Code.Ty) : Nat :=
  if operand.isNumber then 1 else if op.isPost then 3 else 2

def updateCopies (op : Code.Arith) (target : Code.Ty) : Nat :=
  if target.isNumber && op ≠ .add then 1 else 2

mutual

/-- The assignments, compound assignments and steps in an expression, each with the number of nodes
that stand for it in the code. -/
def Expr.copies : Expr → List (Expr × Nat)
  | .parens _ inner => inner.copies
  | .member _ target _ => target.copies
  | .index _ target key => target.copies ++ key.copies
  | .call _ target args =>
    target.copies ++
      match target.callee? with
      | some ("toString", _) => times 0 (allCopies args)
      | some ("substr", _) => startCopies args
      | _ => allCopies args
  | .new _ target args => target.copies ++ allCopies args
  | .unary i op operand =>
    if op.isStep then
      (.unary i op operand, 1) :: times (stepCopies op operand.face.type) operand.copies
    else operand.copies
  | .typeOf _ operand => operand.copies
  | .binary i op left right =>
    match op with
    | .assign => (.binary i .assign left right, 1) :: (left.copies ++ right.copies)
    | .update base =>
      (.binary i (.update base) left right, 1) ::
        (times (updateCopies base left.face.type) left.copies ++ right.copies)
    | _ => left.copies ++ right.copies
  | .isIn _ key target => target.copies ++ key.copies
  | .instanceOf _ target type => times 2 target.copies ++ type.copies
  | .cond _ test yes no => test.copies ++ yes.copies ++ no.copies
  | .object _ props => propsCopies props
  | .comma _ items | .array _ items => allCopies items
  | .function _ ⟨_, _, body, _⟩ => Stmt.allCopies body
  | .name _ _ | .number _ _ | .text _ _ | .bool _ _ | .null _ | .this _ => []

def allCopies : List Expr → List (Expr × Nat)
  | [] => []
  | e :: rest => e.copies ++ allCopies rest

def startCopies : List Expr → List (Expr × Nat)
  | [] => []
  | [e] => e.copies
  | start :: length :: rest => times 2 start.copies ++ (length.copies ++ allCopies rest)

def propsCopies : List (PropertyKey × Expr) → List (Expr × Nat)
  | [] => []
  | (_, e) :: rest => e.copies ++ propsCopies rest

def optionCopies : Option Expr → List (Expr × Nat)
  | none => []
  | some e => e.copies

def declsCopies : List Decl → List (Expr × Nat)
  | [] => []
  | ⟨_, init, _⟩ :: rest => optionCopies init ++ declsCopies rest

/-- The head of a loop, which is an expression or declares; nothing else stays there. -/
def headCopies : Option Stmt → List (Expr × Nat)
  | none => []
  | some (.expr _ e) => e.copies
  | some (.var _ decls) => declsCopies decls
  | some st => times 0 st.copies

def Stmt.copies : Stmt → List (Expr × Nat)
  | .expr _ e => e.copies
  | .var _ decls => declsCopies decls
  | .ret _ value => optionCopies value
  | .block _ body => Stmt.allCopies body
  | .loop _ init test update body =>
    optionCopies test ++ (headCopies init ++ (optionCopies update ++ body.copies))
  | .function _ ⟨_, _, body, _⟩ => Stmt.allCopies body
  | .empty _ => []

def Stmt.allCopies : List Stmt → List (Expr × Nat)
  | [] => []
  | st :: rest => st.copies ++ Stmt.allCopies rest

end

attribute [local simp] Expr.copies

def stepArith : Code.UnaryOp → Code.Arith
  | .preDecrement | .postDecrement => .subtract
  | _ => .add

/-- The node stands for the effect: it is the same operator, or the assignment that spells it out. -/
def Stands : Expr → Write → Prop
  | .binary _ .assign _ _, .assign _ _ => True
  | .binary _ (.update op) _ _, .update _ op' => op' = op
  | .binary _ (.update op) _ _, .assign _ applied => applied = some op
  | .unary _ op _, .step _ op' => op.isStep ∧ op' = op
  | .unary _ op _, .assign _ applied => op.isStep ∧ applied = some (stepArith op)
  | _, _ => False

/-- The effects, each as often as it is copied. -/
def expand (effects : List (Expr × Nat)) : Multiset Expr :=
  (effects.map fun (e, n) => Multiset.replicate n e).sum

/-- The nodes stand for the effects, one for each copy. -/
def Shown (effects : List (Expr × Nat)) (nodes : List Write) : Prop :=
  Multiset.Rel Stands (expand effects) nodes

theorem expand_append (a b : List (Expr × Nat)) : expand (a ++ b) = expand a + expand b := by
  simp [expand]

theorem expand_times (k : Nat) (effects : List (Expr × Nat)) :
    expand (times k effects) = k • expand effects := by
  induction effects with
  | nil => simp [expand, times]
  | cons x rest ih =>
      have hcons (y : Expr × Nat) (ys : List (Expr × Nat)) :
          expand (y :: ys) = Multiset.replicate y.2 y.1 + expand ys := by simp [expand]
      rw [hcons, nsmul_add, ← ih, Multiset.nsmul_replicate]
      exact hcons _ _

variable {xs ys : List (Expr × Nat)} {ws vs : List Write}

theorem shown_nil : Shown [] [] := Multiset.Rel.zero

theorem Shown.append (h : Shown xs ws) (h' : Shown ys vs) : Shown (xs ++ ys) (ws ++ vs) := by
  unfold Shown
  rw [expand_append, ← Multiset.coe_add]
  exact h.add h'

theorem Shown.cons {e : Expr} {w : Write} (h : Stands e w) (hs : Shown xs ws) :
    Shown ((e, 1) :: xs) (w :: ws) := by
  unfold Shown
  rw [show expand ((e, 1) :: xs) = e ::ₘ expand xs by simp [expand], ← Multiset.cons_coe]
  exact Multiset.Rel.cons h hs

theorem Shown.perm (h : Shown xs ws) (hp : ws.Perm vs) : Shown xs vs := by
  unfold Shown
  rw [← Multiset.coe_eq_coe.2 hp]
  exact h

theorem shown_dropped (xs : List (Expr × Nat)) : Shown (times 0 xs) [] := by
  unfold Shown
  rw [expand_times, zero_nsmul]
  exact Multiset.Rel.zero

theorem Shown.once (h : Shown xs ws) : Shown (times 1 xs) ws := by
  unfold Shown
  rw [expand_times, one_nsmul]
  exact h

theorem Shown.again {k : Nat} (h : Shown xs ws) (hk : Shown (times k xs) vs) :
    Shown (times (k + 1) xs) (ws ++ vs) := by
  unfold Shown at hk ⊢
  rw [expand_times] at hk ⊢
  rw [succ_nsmul', ← Multiset.coe_add]
  exact Multiset.Rel.add h hk

theorem Shown.twice (h : Shown xs ws) : Shown (times 2 xs) (ws ++ ws) := h.again h.once

theorem Shown.thrice (h : Shown xs ws) : Shown (times 3 xs) (ws ++ (ws ++ ws)) := h.again h.twice

open Code.Expr (writes_assignment)

variable {left right : Expr} {l r : Code.Expr}

theorem writes_lowerBinary {op : Code.BinaryOp} (h : op.isAssignment = false) :
    (Code.Expr.lowerBinary op l r).writes = l.writes ++ r.writes := by
  have hw (left right : Code.Expr) : Code.Expr.operatorWrites op left right = [] := by
    cases op with
    | assign | update => cases h
    | _ => rfl
  have hself (result : Code.Ty) (method : String) :
      (Code.Expr.invokeSelf result method [l, r]).writes = l.writes ++ r.writes := by
    simp [Code.Expr.allWrites]
  have hnot (method : String) : (Code.Expr.apply .not
      (Code.Expr.invokeSelf .boolean method [l, r])).writes = l.writes ++ r.writes := by
    simp [Code.Expr.allWrites, Code.Expr.stepWrites, Code.UnaryOp.isStep]
  have hkept : (Code.Expr.operate op l r).writes = l.writes ++ r.writes := by simp [hw]
  have hnumbers : (Code.Expr.operate op l.ensureNumber r.ensureNumber).writes = l.writes ++ r.writes := by
    simp [hw]
  cases op with
  | assign | update => cases h
  | and | or =>
      unfold Code.Expr.lowerBinary
      dsimp only
      split_ifs
      · exact hkept
      · exact hself _ _
  | arith op =>
      cases op with
      | add =>
          unfold Code.Expr.lowerBinary
          dsimp only
          split_ifs
          · simp [hw]
          · exact hnumbers
      | _ => exact hnumbers
  | compare op =>
      cases op with
      | identical =>
          unfold Code.Expr.lowerBinary
          dsimp only
          split_ifs
          · exact hkept
          · exact hself _ _
      | notIdentical =>
          unfold Code.Expr.lowerBinary
          dsimp only
          split_ifs
          · exact hkept
          · exact hnot _
      | equal => exact hself _ _
      | notEqual => exact hnot _
      | _ => exact hnumbers

theorem shown_lowerAssign (i : Nat) (hl : Shown left.copies l.writes) (hr : Shown right.copies r.writes) :
    Shown (Expr.binary i .assign left right).copies (Code.Expr.lowerBinary .assign l r).writes := by
  simp only [Expr.copies, Code.Expr.lowerBinary, Code.Expr.writes_operate,
    Code.Expr.writes_ensureType, Code.Expr.operatorWrites, List.cons_append, List.nil_append]
  exact (hl.append hr).cons True.intro

/-- The target of a compound assignment stands there twice, unless the operator is kept. -/
theorem shown_lowerUpdate (i : Nat) (op : Code.Arith) (ht : l.resultType = left.face.type)
    (hl : Shown left.copies l.writes) (hr : Shown right.copies r.writes) :
    Shown (Expr.binary i (.update op) left right).copies
      (Code.Expr.lowerBinary (.update op) l r).writes := by
  have hspelled {a b : Code.Expr} (ha : a.writes = l.writes) (hb : b.writes = r.writes) :
      Shown ((Expr.binary i (.update op) left right, 1) :: (times 2 left.copies ++ right.copies))
        (Code.Expr.assignment (.arith op) l a b).writes := by
    rw [writes_assignment, ha, hb, ← List.append_assoc]
    exact (hl.twice.append hr).cons rfl
  have hnumber := Code.Expr.needsSpelling_eq l
  rw [ht] at hnumber
  simp only [Expr.copies, updateCopies]
  cases op with
  | add =>
      simp only [ne_eq, not_true_eq_false, decide_false, Bool.and_false, Bool.false_eq_true, if_false,
        Code.Expr.lowerBinary]
      split_ifs <;> exact hspelled (by simp) (by simp)
  | _ =>
      simp only [ne_eq, reduceCtorEq, not_false_eq_true, decide_true, Bool.and_true,
        Code.Expr.lowerBinary, hnumber]
      cases left.face.type.isNumber with
      | true =>
          simp only [Bool.not_true, Bool.false_eq_true, if_false, if_true, Code.Expr.writes_operate,
            Code.Expr.operatorWrites, Code.Expr.writes_ensureType]
          exact (hl.once.append hr).cons rfl
      | false => exact hspelled (by simp) (by simp)

theorem shown_lowerBinary (i : Nat) (op : Code.BinaryOp) (ht : l.resultType = left.face.type)
    (hl : Shown left.copies l.writes) (hr : Shown right.copies r.writes) :
    Shown (Expr.binary i op left right).copies (Code.Expr.lowerBinary op l r).writes := by
  cases op with
  | assign => exact shown_lowerAssign i hl hr
  | update op => exact shown_lowerUpdate i op ht hl hr
  | arith | and | or | compare =>
      rw [writes_lowerBinary rfl]
      exact hl.append hr

/-- The operand of a step that is spelled out stands there twice, and once more if its old value is
kept. -/
theorem shown_lowerUnary (i : Nat) (op : Code.UnaryOp) (ht : l.resultType = left.face.type)
    (hl : Shown left.copies l.writes) :
    Shown (Expr.unary i op left).copies (Code.Expr.lowerUnary op l).writes := by
  have hkept (hstep : op.isStep) (hn : l.resultType.isNumber) :
      Shown (Expr.unary i op left).copies (Code.Expr.apply op l).writes := by
    rw [Expr.copies, if_pos hstep, stepCopies, ← ht, if_pos hn, Code.Expr.writes_apply,
      Code.Expr.stepWrites, if_pos hstep]
    exact hl.once.cons ⟨hstep, rfl⟩
  have hbefore (op : Code.Arith) :
      (Code.Expr.stepBefore op l).writes = .assign l.varName? (some op) :: (l.writes ++ l.writes) := by
    simp [Code.Expr.stepBefore, writes_assignment, Code.Expr.int]
  have hpre (hstep : op.isStep) (hpost : op.isPost = false) (hn : ¬ l.resultType.isNumber) :
      Shown (Expr.unary i op left).copies (Code.Expr.stepBefore (stepArith op) l).writes := by
    rw [Expr.copies, if_pos hstep, stepCopies, ← ht, if_neg hn, hpost, hbefore]
    exact hl.twice.cons ⟨hstep, rfl⟩
  have hpost (hstep : op.isStep) (hpost : op.isPost) (hn : ¬ l.resultType.isNumber) :
      Shown (Expr.unary i op left).copies (Code.Expr.stepAfter (stepArith op) l).writes := by
    rw [Expr.copies, if_pos hstep, stepCopies, ← ht, if_neg hn, if_pos hpost]
    have hstands : Stands (.unary i op left) (.assign l.varName? (some (stepArith op))) := ⟨hstep, rfl⟩
    refine (hl.thrice.cons hstands).perm ?_
    simp only [Code.Expr.stepAfter, Code.Expr.writes_invokeSelf, Code.Expr.allWrites,
      Code.Expr.writes_ensureNumber, hbefore, List.append_nil]
    exact List.perm_middle.symm
  cases op with
  | not | bitNot | negate | plus =>
      simpa [Code.Expr.lowerUnary, Code.Expr.stepWrites, Code.UnaryOp.isStep] using hl
  | preIncrement | preDecrement =>
      unfold Code.Expr.lowerUnary
      dsimp only
      split_ifs with hn
      · exact hkept rfl hn
      · exact hpre rfl rfl hn
  | postIncrement | postDecrement =>
      unfold Code.Expr.lowerUnary
      dsimp only
      split_ifs with hn
      · exact hkept rfl hn
      · exact hpost rfl rfl hn

/-- The effects of the expression have their nodes in the code. -/
abbrev Kept (e : Expr) (c : Code.Expr) : Prop := Shown e.copies c.writes

theorem kept_of_nil {e : Expr} {c : Code.Expr} (he : e.copies = []) (hc : c.writes = []) : Kept e c := by
  rw [Kept, he, hc]
  exact shown_nil

theorem shown_all {es : List Expr} {cs : List Code.Expr} (h : List.Forall₂ Kept es cs) :
    Shown (allCopies es) (Code.Expr.allWrites cs) := by
  induction h with
  | nil => exact shown_nil
  | cons h _ ih => exact Shown.append h ih

theorem kept_of_nameCode {c : Code.Expr} (h : NameCode c) (i : Nat) (name : String) :
    Kept (.name i name) c := by
  cases h <;> exact kept_of_nil rfl rfl

theorem kept_literal {e : Expr} {value : Code.Primitive} (h : IsLiteral e value) :
    Kept e (.const value) := by
  cases h <;> exact kept_of_nil rfl rfl

theorem shown_values {props : List (PropertyKey × Expr)} {cs : List Code.Expr}
    (h : EachValue Kept props cs) : Shown (propsCopies props) (Code.Expr.allWrites cs) := by
  induction h with
  | nil => exact shown_nil
  | cons _ h _ ih =>
      simpa [propsCopies, Code.Expr.allWrites, Code.Expr.const, Code.Expr.writes] using Shown.append h ih

theorem copies_of_literalNumber? (e : Expr) {x : Double} (h : literalNumber? e = some x) :
    e.copies = [] := by
  fun_induction literalNumber? e generalizing x with
  | case1 => rfl
  | case2 _ inner ih => exact ih h
  | case3 _ operand ih =>
      obtain ⟨y, hy, -⟩ := Option.map_eq_some_iff.1 h
      simpa [Code.UnaryOp.isStep] using ih hy
  | case4 _ operand ih => simpa [Code.UnaryOp.isStep] using ih h
  | case5 => cases h

/-- What is called is an access whose key is a constant, which writes nothing. -/
theorem writes_of_calledMethod? {callee object : Code.Expr} {method : String}
    (h : calledMethod? callee = some (object, method)) : callee.writes = object.writes := by
  obtain ⟨_, _, _, rfl, -⟩ := calledMethod?_eq_some h
  simp [Code.Expr.writes]

theorem kept_call {target : Expr} {es : List Expr} {callee object c : Code.Expr} {method : String}
    {cs : List Code.Expr} (hs : Seen target callee) (h : Kept target callee)
    (hm : calledMethod? callee = some (object, method)) (ha : List.Forall₂ Kept es cs)
    (hc : methodCall? object method cs = some c) (i : Nat) : Kept (.call i target es) c := by
  have hobject : Shown target.copies object.writes := writes_of_calledMethod? hm ▸ h
  have hcallee := hs.callee object method hm
  cases callCode_of_methodCall? hc with
  | toString => simpa [Kept, hcallee] using hobject.append (shown_dropped (allCopies es))
  | substring => simpa [Kept, hcallee] using hobject.append (shown_all ha)
  | substr =>
      have hadd (start length : Code.Expr) :
          (Code.Expr.lowerBinary (.arith .add) start length).writes = start.writes ++ length.writes :=
        writes_lowerBinary rfl
      cases ha with
      | nil =>
          simpa [Kept, hcallee, withEnd, startCopies, Code.Expr.allWrites] using hobject
      | cons hstart ha =>
          cases ha with
          | nil =>
              have hargs : Shown _ _ := hobject.append hstart
              simpa [Kept, hcallee, withEnd, startCopies, Code.Expr.allWrites] using hargs
          | cons hlength ha =>
              have hargs := (Shown.twice hstart).append (Shown.append hlength (shown_all ha))
              simpa [Kept, hcallee, withEnd, startCopies, Code.Expr.allWrites, hadd] using
                hobject.append hargs

theorem kept_typeTest {target : Expr} {t c : Code.Expr} {name : String} (h : Kept target t)
    (hc : typeTest? t name = some c) (i k : Nat) : Kept (.instanceOf i target (.name k name)) c := by
  obtain ⟨method, -, rfl⟩ := typeTest?_eq_some hc
  simpa [Kept, typeTestCode, Code.Expr.either, Code.Expr.withParens, Code.Expr.writes,
    Code.Expr.allWrites, Code.Expr.operatorWrites, Code.Expr.null, Code.Expr.bool] using Shown.twice h

theorem carries_kept : Carries (fun _ => True) Kept where
  name usage i name _ :=
    ((nameCode_compileName usage name).mono fun _ h => kept_of_nameCode h i name).within
  literal h := kept_literal h
  parens _ h := by simpa [Kept, Code.Expr.withParens] using h
  member _ _ h := by simpa [Kept, Code.Expr.text] using h
  index _ h hk := by simpa [Kept] using Shown.append h hk
  call i hf h hm ha hc := kept_call hf.seen h hm ha hc i
  newSize _ _ _ hx :=
    kept_of_nil (by simp [allCopies, copies_of_literalNumber? _ hx]) rfl
  newItems _ _ h := by simpa [Kept, Code.Expr.writes] using shown_all h
  unary i op hf h := shown_lowerUnary i op (congrArg Code.Face.type hf.seen.face) h
  typeOf _ h := by simpa [Kept, Code.Expr.allWrites] using h
  binary i op hf hl hr := shown_lowerBinary i op (congrArg Code.Face.type hf.seen.face) hl hr
  isIn _ hk ht := by simpa [Kept, Code.Expr.allWrites] using Shown.append ht hk
  instanceOf i j h hc := kept_typeTest h hc i j
  cond _ ht hy hn := by
    simpa [Kept, Code.Expr.lowerTernary, Code.Expr.either, Code.Expr.writes] using
      Shown.append (Shown.append ht hy) hn
  object _ h := by simpa [Kept] using shown_values h
  array _ h := by simpa [Kept, Code.Expr.writes] using shown_all h

theorem kept_compileExpr (e : Expr) : Gives (compileExpr e) (Kept e) := carries_kept.gives_compileExpr e

theorem shown_option {e : Option Expr} {c : Option Code.Expr} (h : Option.Rel Kept e c) :
    Shown (optionCopies e) (Code.Expr.allWrites c.toList) := by
  cases h with
  | none => exact shown_nil
  | some h => simpa [optionCopies, Code.Expr.allWrites] using h

theorem shown_test {e : Option Expr} {c : Code.Expr} (h : TestCode Kept e c) :
    Shown (optionCopies e) c.writes := by
  cases h with
  | none => exact shown_nil
  | some h => exact h

theorem shown_decls {ds : List Decl} {cs : List Code.VarDecl}
    (h : List.Forall₂ (DeclCode Kept) ds cs) : Shown (declsCopies ds) (Code.declWrites cs) := by
  induction h with
  | nil => exact shown_nil
  | cons h _ ih => simpa [declsCopies, Code.declWrites] using (shown_option h).append ih

theorem shown_head {init : Option Stmt} {head : Option Code.Stmt} (h : HeadCode Kept init head) :
    Shown (headCopies init) (bodyWrites head.toList) := by
  cases h with
  | expr _ h => simpa [headCopies, Code.bodyWrites_expr] using h
  | var _ h => simpa [headCopies, Code.bodyWrites_declStmt] using shown_decls h
  | none hexpr hvar =>
      unfold headCopies
      split
      · exact shown_nil
      · exact absurd rfl (hexpr _ _)
      · exact absurd rfl (hvar _ _)
      · exact shown_dropped _

theorem carries_shown : CarriesStmts Kept (fun st code => Shown st.copies (bodyWrites code))
    fun body code => Shown (Stmt.allCopies body) (bodyWrites code) where
  expr _ h := by simpa [Stmt.copies, Code.bodyWrites_expr] using h
  var _ h := by simpa [Stmt.copies, Code.bodyWrites_declStmt] using shown_decls h
  retNone _ := shown_nil
  retSome _ h := by simpa [Stmt.copies, optionCopies, Code.bodyWrites_ret] using h
  block _ h := h
  loop _ _ hi ht hs hb := by
    rw [Code.bodyWrites_loop]
    exact (shown_test ht).append ((shown_head hi).append ((shown_option hs).append hb))
  empty _ := shown_nil
  nil := shown_nil
  cons h hr := by simpa [Stmt.allCopies, Code.bodyWrites_append] using h.append hr

theorem shown_method {f : Function} {m : Code.Method}
    (h : MethodCode (fun body code => Shown (Stmt.allCopies body) (bodyWrites code)) f m) :
    Shown (Stmt.allCopies f.body) (bodyWrites m.body) := by
  obtain ⟨code, hcode, hbody | hbody⟩ := h.body
  · rwa [hbody]
  · simpa [hbody, Code.bodyWrites_append, Code.bodyWrites_ret, Code.Expr.undefined] using hcode

theorem shown_compileProgram (program : List Stmt) :
    Gives (compileProgram program) fun ms =>
      Shown (Stmt.allCopies program) (ms.flatMap fun m => bodyWrites m.body) := by
  refine (carries_shown.gives_compileProgram kept_compileExpr program).mono fun ms h => ?_
  induction h with
  | nil => exact shown_nil
  | function _ hm _ ih => exact (shown_method hm).append ih
  | empty _ _ ih => exact ih

/-- The effects of a program, one entry for each. -/
def effects (program : List Stmt) : List Expr := (Stmt.allCopies program).map Prod.fst

theorem expand_of_all {xs : List (Expr × Nat)} (h : xs.all (·.2 = 1)) :
    expand xs = ↑(xs.map Prod.fst) := by
  induction xs with
  | nil => rfl
  | cons x rest ih =>
      obtain ⟨e, n⟩ := x
      simp only [List.all_cons, Bool.and_eq_true, decide_eq_true_eq] at h
      obtain ⟨rfl, hrest⟩ := h
      rw [List.map_cons, ← Multiset.cons_coe, ← ih hrest]
      simp [expand]

/-- In a compiled script each effect has exactly as many nodes as lowering makes copies of it; if it
copies and drops none, every effect has exactly one. -/
theorem rel_stands_nodes {names : Code.Names} {source : String} {t : Compiled}
    (h : (compile names source).1 = .ok t) :
    ∃ program, parse source = .ok program ∧
      Multiset.Rel Stands (expand (Stmt.allCopies program)) t.nodes ∧
      ((Stmt.allCopies program).all (·.2 = 1) → Multiset.Rel Stands (effects program) t.nodes) := by
  obtain ⟨program, _, hp, hy, -⟩ := yields_of_compile h
  have hshown : Multiset.Rel Stands (expand (Stmt.allCopies program)) t.nodes :=
    shown_compileProgram program _ _ _ hy
  refine ⟨program, hp, hshown, fun hall => ?_⟩
  rwa [expand_of_all hall] at hshown

/-- Steps and assignments of every sort in places that are copied, dropped and neither. -/
def effectsSource : String :=
  "function(){data[index++] += count; y = data.x++;} " ++
  "function(){return key.substr(index++, count -= 1) + data.toString(x++);}"

theorem rel_stands_nodes_mixed :
    ∃ t program, (compile {} effectsSource).1 = .ok t ∧
      (Stmt.allCopies program).map Prod.snd = [1, 2, 1, 1, 2, 1, 0] ∧ t.nodes.length = 8 ∧
      Multiset.Rel Stands (expand (Stmt.allCopies program)) t.nodes := by
  generalize hs : effectsSource = source
  have hok : (compile {} source).1.toOption.any (fun t => t.nodes.length = 8) ∧
      (parse source).toOption.any (fun program =>
        (Stmt.allCopies program).map Prod.snd = [1, 2, 1, 1, 2, 1, 0]) := by
    subst hs
    decide +kernel
  obtain ⟨t, h, hnodes⟩ := exists_ok_of_any hok.1
  obtain ⟨program, hp, hshown, -⟩ := rel_stands_nodes h
  have hcopies := check_of_any hok.2 hp
  exact ⟨t, program, h, of_decide_eq_true hcopies, of_decide_eq_true hnodes, hshown⟩

/-- The step in the key of a compound assignment is made twice. -/
theorem not_rel_stands_step :
    ∃ t program, (compile {} "function(data,index){return(data[index++] += 1);}").1 = .ok t ∧
      parse "function(data,index){return(data[index++] += 1);}" = .ok program ∧
      t.nodes = [.assign none (some .add), .step (some "index") .postIncrement,
        .step (some "index") .postIncrement] ∧
      (effects program).length = 2 ∧ ¬ Multiset.Rel Stands (effects program) t.nodes := by
  generalize hs : "function(data,index){return(data[index++] += 1);}" = source
  have hok : (compile {} source).1.toOption.any (fun t =>
        t.nodes = [.assign none (some .add), .step (some "index") .postIncrement,
        .step (some "index") .postIncrement]) ∧
      (parse source).toOption.any (fun program => (effects program).length = 2) := by
    subst hs
    decide +kernel
  obtain ⟨t, h, hnodes⟩ := exists_ok_of_any hok.1
  obtain ⟨program, hp, htwo⟩ := exists_ok_of_any hok.2
  simp only [decide_eq_true_eq] at hnodes htwo
  refine ⟨t, program, h, hp, hnodes, htwo, fun hrel => ?_⟩
  have hcard := Multiset.card_eq_card_of_rel hrel
  simp [hnodes, htwo] at hcard

end TwinView.Script
