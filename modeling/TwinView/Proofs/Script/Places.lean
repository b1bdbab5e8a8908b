import TwinView.Proofs.Code.Places
import TwinView.Proofs.Script.Effects

/-!
What the writes of a script are made to. The parser checks the target of an assignment, but not the operand
of a step, and a name that it takes for a target may be compiled to a constant. Whether a write is well
formed can be told from the script: it depends on what its target compiles to, on the type that lowering
sees of it, and on the operator. A write that lowering copies is well formed in all its copies, and one that
it drops needs not be.
-/

namespace TwinView.Script

open Code.Expr (WritesFit AllWritesFit)
open Java (EveryExpr EveryIn exprs)

attribute [local simp] Expr.copies

mutual

/-- Whether the expression compiles to something that can be written to. -/
def Expr.isPlace : Expr → Bool
  | .name _ n => (nameFace n).constant.isNone
  | .member _ _ _ | .index _ _ _ => true
  | .parens _ inner => inner.isPlace
  | .call _ target _ =>
    -- the text of a text is that text itself
    match target.callee? with
    | some ("toString", o) => o.type.isText && target.ownerIsPlace
    | _ => false
  | _ => false

/-- Whether the object that a called expression is accessed of is a place. -/
def Expr.ownerIsPlace : Expr → Bool
  | .member _ target _ | .index _ target _ => target.isPlace
  | .parens _ inner => inner.ownerIsPlace
  | _ => false

end

/-- Whether an effect of a script writes to a place, and a value that fits it. -/
def Expr.effectFits : Expr → Bool
  | .binary _ op left _ => op.targetFits left.isPlace left.face.type
  | .unary _ op operand => op.targetFits operand.isPlace operand.face.type
  | _ => true

def AllFit (effects : List (Expr × Nat)) : Prop := ∀ x ∈ effects, x.2 ≠ 0 → x.1.effectFits

variable {xs ys : List (Expr × Nat)} {e left right : Expr} {c l r : Code.Expr}

@[simp] theorem allFit_nil : AllFit [] := by simp [AllFit]

@[simp] theorem allFit_append : AllFit (xs ++ ys) ↔ AllFit xs ∧ AllFit ys := by
  simp [AllFit, or_imp, forall_and]

@[simp] theorem allFit_cons_one : AllFit ((e, 1) :: xs) ↔ e.effectFits ∧ AllFit xs := by
  simp [AllFit]

theorem allFit_times {k : Nat} (hk : k ≠ 0) : AllFit (times k xs) ↔ AllFit xs := by
  unfold AllFit times
  rw [List.forall_mem_map]
  simp only [ne_eq, Nat.mul_eq_zero, hk, false_or]

@[simp] theorem allFit_dropped : AllFit (times 0 xs) := by
  unfold AllFit times
  rw [List.forall_mem_map]
  simp

/-- The compiled expression is a place if the script tells so, and its object is one if it is called. -/
structure SamePlace (e : Expr) (c : Code.Expr) : Prop where
  place : c.isPlace = e.isPlace
  owner : ∀ object method, calledMethod? c = some (object, method) → object.isPlace = e.ownerIsPlace

theorem SamePlace.of_not_called (hm : calledMethod? c = none) (h : c.isPlace = e.isPlace) : SamePlace e c where
  place := h
  owner object method hc := by
    rw [hm] at hc
    cases hc

theorem SamePlace.of_isCompound (h : c.isCompound) (he : e.isPlace = false) : SamePlace e c := by
  refine .of_not_called (Code.Expr.calledMethod?_of_isCompound h) ?_
  rw [he]
  cases c <;> first | rfl | cases h

theorem SamePlace.propertyOf {target : Expr} {key : Code.Expr} (h : SamePlace target c)
    (he : e.isPlace) (ho : e.ownerIsPlace = target.isPlace) : SamePlace e (.propertyOf c key) where
  place := he.symm
  owner object method hm := by
    obtain ⟨k, -, hk⟩ := Option.map_eq_some_iff.1 hm
    cases hk
    rw [h.place, ho]

theorem SamePlace.parens (h : SamePlace e c) (i : Nat) : SamePlace (.parens i e) c.withParens where
  place := (Code.Expr.isPlace_setParens true c).trans h.place
  owner object method hm := by
    refine h.owner object method ?_
    cases c <;> exact hm

/-- What a name may be compiled to: a constant, a variable or a name that is looked up. -/
def fromName : Code.Expr → Bool
  | .prim _ _ | .var _ _ _ | .extra _ _ => true
  | _ => false

theorem NameCode.fromName (h : NameCode c) : fromName c := by
  cases h <;> rfl

theorem fromName_compileName (usage : Usage) (name : String) :
    Gives (compileName usage name) fun c => fromName c :=
  (nameCode_compileName usage name).mono fun _ h => h.fromName

theorem SamePlace.name {i : Nat} {name : String} (h : fromName c) (hs : Seen (.name i name) c) :
    SamePlace (.name i name) c := by
  have hplace : c.isPlace = c.primitive?.isNone ∧ calledMethod? c = none := by
    cases c <;> first | exact ⟨rfl, rfl⟩ | cases h
  exact .of_not_called hplace.2 (hplace.1.trans (congrArg (fun f => f.constant.isNone) hs.face))

theorem writesFit_of_fromName (h : fromName c) : c.WritesFit := by
  cases c <;> first | rfl | cases h

theorem samePlace_compileName (usage : Usage) (i : Nat) (name : String) :
    Gives (compileName usage name) (SamePlace (.name i name)) :=
  ((fromName_compileName usage name).and (seen_compileName usage i name)).mono fun _ h => .name h.1 h.2

theorem samePlace_call {target : Expr} {callee object : Code.Expr} {method : String}
    {args : List Code.Expr} (hs : Seen target callee) (h : SamePlace target callee)
    (hm : calledMethod? callee = some (object, method)) (hc : methodCall? object method args = some c)
    (i : Nat) (es : List Expr) : SamePlace (.call i target es) c := by
  have hcallee := hs.callee object method hm
  have howner := h.owner object method hm
  have hplace : (Expr.call i target es).isPlace =
      if method = "toString" then object.resultType.isText && object.isPlace else false := by
    rw [Expr.isPlace, hcallee, howner]
    split
    · next he =>
        cases he
        rfl
    · next hne => rw [if_neg (fun he => hne object.face (by rw [he]))]
  cases callCode_of_methodCall? hc with
  | toString =>
      rw [if_pos rfl] at hplace
      unfold Code.Expr.ensureText
      split_ifs with ht
      · -- a text is no access, so that it cannot be called
        refine .of_not_called ?_ (by rw [hplace, ht, Bool.true_and])
        cases object with
        | property => cases ht
        | _ => rfl
      · exact .of_isCompound rfl (by rw [hplace]; simp [ht])
  | substring | substr => exact .of_isCompound rfl hplace

theorem samePlace_literal {value : Code.Primitive} (h : IsLiteral e value) :
    SamePlace e (.const value) := by
  cases h <;> exact .of_not_called rfl rfl

theorem carries_samePlace : Carries (fun _ => True) SamePlace where
  name usage i name _ := (samePlace_compileName usage i name).within
  literal h := samePlace_literal h
  parens i h := h.parens i
  member _ _ h := h.propertyOf rfl rfl
  index _ h _ := h.propertyOf rfl rfl
  call i hf h hm _ hc := samePlace_call hf.seen h hm hc i _
  newSize _ _ _ _ := .of_isCompound rfl rfl
  newItems _ _ _ := .of_isCompound rfl rfl
  unary _ op _ _ := .of_isCompound (Code.Expr.isCompound_lowerUnary op _) rfl
  typeOf _ _ := .of_isCompound rfl rfl
  binary _ op _ _ _ := .of_isCompound (Code.Expr.isCompound_lowerBinary op _ _) rfl
  isIn _ _ _ := .of_isCompound rfl rfl
  instanceOf _ _ _ hc := .of_isCompound (face_of_typeTest? hc).1 rfl
  cond _ _ _ _ := .of_isCompound rfl rfl
  object _ _ := .of_isCompound rfl rfl
  array _ _ := .of_isCompound rfl rfl

theorem samePlace_compileExpr (e : Expr) : Gives (compileExpr e) (SamePlace e) :=
  carries_samePlace.gives_compileExpr e

theorem ComesFrom.samePlace (h : ComesFrom e c) : SamePlace e c :=
  h.of_gives samePlace_compileExpr samePlace_compileName

/-- The code of an expression writes well if and only if its effects do. -/
abbrev Fit (e : Expr) (c : Code.Expr) : Prop := c.WritesFit ↔ AllFit e.copies

theorem fit_of_copies (he : e.copies = []) (hc : c.WritesFit) : Fit e c :=
  iff_of_true hc (by rw [he]; exact allFit_nil)

theorem fit_compileName (usage : Usage) (i : Nat) (name : String) :
    Gives (compileName usage name) (Fit (.name i name)) :=
  (fromName_compileName usage name).mono fun _ h => fit_of_copies rfl (writesFit_of_fromName h)

theorem allFit_all {es : List Expr} {cs : List Code.Expr} (h : List.Forall₂ Fit es cs) :
    AllWritesFit cs ↔ AllFit (allCopies es) := by
  induction h with
  | nil => simp [allCopies]
  | cons h _ ih => simp [allCopies, h, ih]

theorem updateCopies_ne_zero (op : Code.Arith) (target : Code.Ty) : updateCopies op target ≠ 0 := by
  unfold updateCopies
  split <;> decide

theorem stepCopies_ne_zero (op : Code.UnaryOp) (operand : Code.Ty) : stepCopies op operand ≠ 0 := by
  unfold stepCopies
  split_ifs <;> decide

theorem fit_lowerBinary (i : Nat) (op : Code.BinaryOp) (hs : Seen left l) (hp : SamePlace left l)
    (hl : Fit left l) (hr : Fit right r) :
    Fit (.binary i op left right) (Code.Expr.lowerBinary op l r) := by
  have hfits : (Expr.binary i op left right).effectFits = op.targetFits l.isPlace l.resultType := by
    rw [Expr.effectFits, ← hp.place, ← hs.face]
    rfl
  rw [Fit, Code.Expr.writesFit_lowerBinary, ← hfits]
  refine (and_congr_right' (and_congr hl hr)).trans ?_
  cases op with
  | assign => simp
  | update op => simp [allFit_times (updateCopies_ne_zero _ _)]
  | arith | and | or | compare => simp [Expr.effectFits, Code.BinaryOp.targetFits]

theorem fit_lowerUnary (i : Nat) (op : Code.UnaryOp) (hs : Seen e c) (hp : SamePlace e c) (h : Fit e c) :
    Fit (.unary i op e) (Code.Expr.lowerUnary op c) := by
  have hfits : (Expr.unary i op e).effectFits = op.targetFits c.isPlace c.resultType := by
    rw [Expr.effectFits, ← hp.place, ← hs.face]
    rfl
  rw [Fit, Code.Expr.writesFit_lowerUnary, ← hfits, Expr.copies]
  refine (and_congr_right' h).trans ?_
  split_ifs with hstep
  · simp [allFit_times (stepCopies_ne_zero _ _)]
  · simp [Expr.effectFits, Code.UnaryOp.targetFits, hstep]

theorem writesFit_of_calledMethod? {callee object : Code.Expr} {method : String}
    (h : calledMethod? callee = some (object, method)) : callee.WritesFit ↔ object.WritesFit := by
  obtain ⟨_, _, _, rfl, -⟩ := calledMethod?_eq_some h
  exact Code.Expr.writesFit_propertyOf.trans (and_iff_left rfl)

theorem fit_call {target : Expr} {es : List Expr} {callee object : Code.Expr} {method : String}
    {cs : List Code.Expr} (hs : Seen target callee) (h : Fit target callee)
    (hm : calledMethod? callee = some (object, method)) (ha : List.Forall₂ Fit es cs)
    (hc : methodCall? object method cs = some c) (i : Nat) : Fit (.call i target es) c := by
  have hobject : object.WritesFit ↔ AllFit target.copies := (writesFit_of_calledMethod? hm).symm.trans h
  have hcallee := hs.callee object method hm
  cases callCode_of_methodCall? hc with
  | toString => simp [Fit, hcallee, hobject]
  | substring => simp [Fit, hcallee, hobject, allFit_all ha]
  | substr =>
      have hadd (start length : Code.Expr) : (Code.Expr.lowerBinary (.arith .add) start length).WritesFit ↔
          start.WritesFit ∧ length.WritesFit := Code.Expr.writesFit_of_quiet rfl
      cases ha with
      | nil => simp [Fit, hcallee, hobject, withEnd, startCopies]
      | cons hstart ha =>
          cases ha with
          | nil => simp [Fit, hcallee, hobject, withEnd, startCopies, hstart]
          | cons hlength ha =>
              simp [Fit, hcallee, hobject, withEnd, startCopies, hadd, hstart, hlength,
                allFit_all ha, allFit_times, and_assoc]

theorem fit_typeTest {target : Expr} {t : Code.Expr} {name : String} (h : Fit target t)
    (hc : typeTest? t name = some c) (i k : Nat) : Fit (.instanceOf i target (.name k name)) c := by
  obtain ⟨method, -, rfl⟩ := typeTest?_eq_some hc
  have hnull : (Code.Expr.operate (.compare .identical) t .null).WritesFit ↔ t.WritesFit :=
    (and_iff_right rfl).trans (and_iff_left rfl)
  simp [Fit, typeTestCode, allFit_times, Code.Expr.withParens, hnull, h, Code.Expr.bool]

theorem fit_literal {value : Code.Primitive} (h : IsLiteral e value) : Fit e (.const value) := by
  cases h <;> exact fit_of_copies rfl rfl

theorem allFit_values {props : List (PropertyKey × Expr)} {cs : List Code.Expr}
    (h : EachValue Fit props cs) : AllWritesFit cs ↔ AllFit (propsCopies props) := by
  induction h with
  | nil => simp [propsCopies]
  | cons _ h _ ih => simp [propsCopies, Code.Expr.writesFit_const, h, ih]

theorem carries_fit : Carries (fun _ => True) Fit where
  name usage i name _ := (fit_compileName usage i name).within
  literal h := fit_literal h
  parens _ h := by simpa [Fit, Code.Expr.withParens] using h
  member _ _ h := by simpa [Fit, Code.Expr.text] using h
  index _ h hk := by simp [Fit, h, hk]
  call i hf h hm ha hc := fit_call hf.seen h hm ha hc i
  newSize _ _ _ hx :=
    fit_of_copies (by simp [allCopies, copies_of_literalNumber? _ hx]) (by simp)
  newItems _ _ h := by simp [Fit, allFit_all h]
  unary i op hf h := fit_lowerUnary i op hf.seen hf.samePlace h
  typeOf _ h := by simp [Fit, h]
  binary i op hf hl hr := fit_lowerBinary i op hf.seen hf.samePlace hl hr
  isIn _ hk ht := by simp [Fit, hk, ht]
  instanceOf i j h hc := fit_typeTest h hc i j
  cond _ ht hy hn := by simp [Fit, ht, hy, hn]
  object _ h := by simp [Fit, allFit_values h]
  array _ h := by simp [Fit, allFit_all h]

theorem fit_compileExpr (e : Expr) : Gives (compileExpr e) (Fit e) := carries_fit.gives_compileExpr e

theorem allFit_option {e : Option Expr} {c : Option Code.Expr} (h : Option.Rel Fit e c) :
    AllWritesFit c.toList ↔ AllFit (optionCopies e) := by
  cases h with
  | none => simp [optionCopies]
  | some h => simp [optionCopies, h]

theorem allFit_test {e : Option Expr} {c : Code.Expr} (h : TestCode Fit e c) :
    c.WritesFit ↔ AllFit (optionCopies e) := by
  cases h with
  | none => exact iff_of_true rfl (by simp [optionCopies])
  | some h => exact h

abbrev BodyFits (body : List Code.Stmt) : Prop := EveryIn (fun e => e.writeFits) body

theorem bodyFits_append {a b : List Code.Stmt} : BodyFits (a ++ b) ↔ BodyFits a ∧ BodyFits b :=
  Code.Stmt.forall_allOf_append

theorem bodyFits_expr {origin : Code.Origin} : BodyFits [.expr c origin] ↔ c.WritesFit :=
  Code.Stmt.forall_allOf_expr.trans (by simp [exprs])

theorem bodyFits_ret : BodyFits [.ret (some c)] ↔ c.WritesFit :=
  Code.Stmt.forall_allOf_ret.trans (by simp [exprs])

theorem bodyFits_declStmt (ds : List Code.VarDecl) :
    BodyFits [declStmt ds] ↔ ∀ d ∈ ds, AllWritesFit d.init.toList := by
  have hinit (d : Code.VarDecl) : AllWritesFit d.init.toList ↔ ∀ e ∈ d.init, e.WritesFit := by
    cases d.init <;> simp
  simp only [hinit]
  unfold declStmt
  split
  · simp [BodyFits, EveryIn, Code.Stmt.allOf, Code.Stmt.withInner, exprs]
  · simp only [BodyFits, EveryIn, Code.Stmt.allOf, Code.Stmt.withInner, exprs, List.append_nil,
      List.forall_mem_singleton, List.forall_mem_flatMap, Option.mem_toList]
    rfl

theorem bodyFits_loop (init : Option Code.Stmt) (test : Code.Expr) (step : Option Code.Expr)
    (body : List Code.Stmt) :
    BodyFits [.loop init test (step.map fun e => .expr e) body] ↔
      test.WritesFit ∧ BodyFits init.toList ∧ AllWritesFit step.toList ∧ BodyFits body := by
  refine Code.Stmt.forall_allOf_loop.trans ?_
  rw [Code.Stmt.forall_allOf_step]
  cases step <;> simp [BodyFits, EveryIn, exprs]

theorem allFit_decls {ds : List Decl} {cs : List Code.VarDecl} (h : List.Forall₂ (DeclCode Fit) ds cs) :
    (∀ d ∈ cs, AllWritesFit d.init.toList) ↔ AllFit (declsCopies ds) := by
  induction h with
  | nil => simp [declsCopies]
  | cons h _ ih => simp [declsCopies, allFit_option h, ih]

theorem allFit_head {init : Option Stmt} {head : Option Code.Stmt} (h : HeadCode Fit init head) :
    BodyFits head.toList ↔ AllFit (headCopies init) := by
  cases h with
  | expr _ h => exact bodyFits_expr.trans h
  | var _ h => exact (bodyFits_declStmt _).trans (allFit_decls h)
  | none hexpr hvar =>
      refine iff_of_true Java.everyIn_nil ?_
      unfold headCopies
      split
      · exact allFit_nil
      · exact absurd rfl (hexpr _ _)
      · exact absurd rfl (hvar _ _)
      · exact allFit_dropped

theorem carries_allFit : CarriesStmts Fit (fun st code => BodyFits code ↔ AllFit st.copies)
    fun body code => BodyFits code ↔ AllFit (Stmt.allCopies body) where
  expr _ h := bodyFits_expr.trans h
  var _ h := (bodyFits_declStmt _).trans (allFit_decls h)
  retNone _ := iff_of_true (Java.everyIn_ret rfl) allFit_nil
  retSome _ h := bodyFits_ret.trans h
  block _ h := h
  loop _ _ hi ht hs hb := by
    rw [bodyFits_loop, allFit_test ht, allFit_head hi, allFit_option hs, hb]
    simp [Stmt.copies]
  empty _ := iff_of_true Java.everyIn_nil allFit_nil
  nil := iff_of_true Java.everyIn_nil allFit_nil
  cons h hr := by rw [bodyFits_append, h, hr, Stmt.allCopies, allFit_append]

theorem allFit_method {f : Function} {m : Code.Method}
    (h : MethodCode (fun body code => BodyFits code ↔ AllFit (Stmt.allCopies body)) f m) :
    BodyFits m.body ↔ AllFit (Stmt.allCopies f.body) := by
  obtain ⟨code, hcode, hbody | hbody⟩ := h.body
  · rwa [hbody]
  · have hret : BodyFits [.ret (some .undefined)] := Java.everyIn_ret (Code.Expr.writesFit_const _)
    rwa [hbody, bodyFits_append, and_iff_left hret]

theorem allFit_compileProgram (program : List Stmt) :
    Gives (compileProgram program) fun ms =>
      (∀ m ∈ ms, BodyFits m.body) ↔ AllFit (Stmt.allCopies program) := by
  refine (carries_allFit.gives_compileProgram fit_compileExpr program).mono fun ms h => ?_
  induction h with
  | nil => simp [Stmt.allCopies]
  | function _ hm _ ih =>
      rw [List.forall_mem_cons, allFit_method hm, ih, Stmt.allCopies, allFit_append]
      rfl
  | empty _ _ ih => exact ih

/-- Every write of a compiled script is well formed if and only if all effects of the script are that
lowering does not drop: they write to places, and store no number in a variable of a text. -/
theorem everyExpr_writeFits_iff {names : Code.Names} {source : String} {t : Compiled}
    (h : (compile names source).1 = .ok t) :
    ∃ program, parse source = .ok program ∧
      (EveryExpr (fun e => e.writeFits) t ↔
        ∀ x ∈ Stmt.allCopies program, x.2 ≠ 0 → x.1.effectFits) := by
  obtain ⟨program, _, hp, hy, -⟩ := yields_of_compile h
  exact ⟨program, hp, allFit_compileProgram program _ _ _ hy⟩

/-- Assignments and steps of every sort; the one step of a constant is dropped. -/
def writesSource : String :=
  "function(data,key)\x7bkey = 1; key += data.x--; return key.toString(5++);\x7d"

theorem everyExpr_writeFits_iff_mixed :
    ∃ t program, (compile {} writesSource).1 = .ok t ∧ t.methods.length = 1 ∧
      (Stmt.allCopies program).map Prod.snd = [1, 1, 1, 0] ∧
      (EveryExpr (fun e => e.writeFits) t ↔
        ∀ x ∈ Stmt.allCopies program, x.2 ≠ 0 → x.1.effectFits) ∧
      EveryExpr (fun e => e.writeFits) t := by
  generalize hs : writesSource = source
  have hok : (compile {} source).1.toOption.any (fun t => t.methods.length = 1) ∧
      (parse source).toOption.any (fun program =>
        (Stmt.allCopies program).map Prod.snd = [1, 1, 1, 0] &&
          (Stmt.allCopies program).all fun x => x.2 = 0 || x.1.effectFits) := by
    subst hs
    decide +kernel
  obtain ⟨t, h, hone⟩ := exists_ok_of_any hok.1
  obtain ⟨program, hp, hiff⟩ := everyExpr_writeFits_iff h
  have hcopies := check_of_any hok.2 hp
  simp only [decide_eq_true_eq, Bool.and_eq_true, List.all_eq_true, Bool.or_eq_true] at hcopies
  exact ⟨t, program, h, of_decide_eq_true hone, hcopies.1, hiff,
    hiff.2 fun x hx hne => (hcopies.2 x hx).resolve_left hne⟩

/-- A constant is incremented: the operand of a step is not checked as the target of an assignment is. -/
theorem not_everyExpr_writeFits_constant :
    ∃ t m e, (compile {} "function()\x7breturn 5++;\x7d").1 = .ok t ∧ m ∈ t.methods ∧ m.inline? = some e ∧
      Java.expression {} .flagged e = "5++" ∧ e.writeFits = false ∧ ¬ EveryExpr (fun e => e.writeFits) t := by
  generalize hs : "function()\x7breturn 5++;\x7d" = source
  have hbad : (compile {} source).1.toOption.any (fun t => t.methods.any fun m => m.inline?.any fun e =>
        Java.expression {} .flagged e = "5++" && !e.writeFits) ∧
      (parse source).toOption.any (fun program =>
        (Stmt.allCopies program).any fun x => x.2 ≠ 0 && !x.1.effectFits) := by
    subst hs
    decide +kernel
  obtain ⟨t, h, hmethods⟩ := exists_ok_of_any hbad.1
  obtain ⟨program, _, hp, hy, -⟩ := yields_of_compile h
  have hcopies := check_of_any hbad.2 hp
  simp only [List.any_eq_true, Option.any_eq_true, Bool.and_eq_true, decide_eq_true_eq,
    Bool.not_eq_true'] at hmethods hcopies
  obtain ⟨m, hm, e, he, htext, hnode⟩ := hmethods
  obtain ⟨x, hx, hne, hbad⟩ := hcopies
  refine ⟨t, m, e, h, hm, he, htext, hnode, fun hall => ?_⟩
  have hfits := (allFit_compileProgram program _ _ _ hy).1 hall x hx hne
  rw [hbad] at hfits
  cases hfits

end TwinView.Script
