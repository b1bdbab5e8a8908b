import Mathlib.Data.List.Forall2
import TwinView.Proofs.Code.Statements
import TwinView.Proofs.Java.Lowering
import TwinView.Proofs.Script.Results
import TwinView.Proofs.Script.Soundness

/-!
Which scripts keep their nesting when they are written as Java. Lowering adds operators without
parentheses at a few places only: the test of a type becomes a conditional, a compound assignment may be
spelled out, and the length of a `substr` is added to its start. A script in which the operands at those
places bind tightly enough is read back as it was compiled.
-/

namespace TwinView.Script

open Code

/-! The operands that lowering puts under other operators. -/

/-- A number; it loses the parentheses around it. -/
def Expr.isNumeral : Expr → Bool
  | .number _ _ => true
  | .parens _ inner => inner.isNumeral
  | _ => false

def Expr.isTypeTest : Expr → Bool
  | .instanceOf _ _ _ => true
  | _ => false

/-- How tightly an expression is sure to bind after it is compiled. -/
def Expr.bound (e : Expr) : Nat :=
  if e.isNumeral then prefixLevel else if e.isTypeTest then conditionalLevel else e.level

/-- Whether what is called is a member with a name other than `substr`. -/
def Expr.isOtherMember : Expr → Bool
  | .member _ _ method => method ≠ "substr"
  | _ => false

def canAddUp : List Expr → Bool
  | start :: length :: _ =>
    infixLevel (precedence (.arith .add)) ≤ start.bound &&
    infixLevel (precedence (.arith .add)) < length.bound
  | _ => true

mutual

/-- Whether every operand binds as tightly as its position requires once it is compiled. -/
def Expr.keepsNesting : Expr → Bool
  | .parens _ inner => inner.keepsNesting
  | .member _ target _ => target.keepsNesting
  | .index _ target key => target.keepsNesting && key.keepsNesting
  | .call _ target args =>
    (target.isOtherMember || canAddUp args) && target.keepsNesting && allKeepNesting args
  | .new _ _ args => allKeepNesting args
  | .unary _ op operand => (!op.isStep || operand.isTarget) && operand.keepsNesting
  | .typeOf _ operand => operand.keepsNesting
  | .binary _ op left right =>
    (match op with
      | .assign => true
      | .update base => infixLevel (precedence (.arith base)) < right.bound
      | _ => !left.isTypeTest && !right.isTypeTest) &&
    left.keepsNesting && right.keepsNesting
  | .isIn _ key target => key.keepsNesting && target.keepsNesting
  | .instanceOf _ target _ => tightest ≤ target.bound && target.keepsNesting
  | .cond _ test yes no =>
    !test.isTypeTest && conditionalLevel ≤ no.level && test.keepsNesting && yes.keepsNesting &&
    no.keepsNesting
  | .object _ props => propsKeepNesting props
  | .array _ items => allKeepNesting items
  | _ => true

def allKeepNesting : List Expr → Bool
  | [] => true
  | e :: rest => e.keepsNesting && allKeepNesting rest

def propsKeepNesting : List (PropertyKey × Expr) → Bool
  | [] => true
  | (_, e) :: rest => e.keepsNesting && propsKeepNesting rest

end

mutual

def Stmt.keepsNesting : Stmt → Bool
  | .expr _ e => e.keepsNesting
  | .var _ decls => declsKeepNesting decls
  | .ret _ value => optionKeepsNesting value
  | .block _ body => Stmt.allKeepNesting body
  | .loop _ none test update body =>
    optionKeepsNesting test && optionKeepsNesting update && body.keepsNesting
  | .loop _ (some init) test update body =>
    init.keepsNesting && optionKeepsNesting test && optionKeepsNesting update && body.keepsNesting
  | .function _ ⟨_, _, body, _⟩ => Stmt.allKeepNesting body
  | .empty _ => true

def Stmt.allKeepNesting : List Stmt → Bool
  | [] => true
  | s :: rest => s.keepsNesting && Stmt.allKeepNesting rest

def declsKeepNesting : List Decl → Bool
  | [] => true
  | ⟨_, value, _⟩ :: rest => optionKeepsNesting value && declsKeepNesting rest

def optionKeepsNesting : Option Expr → Bool
  | none => true
  | some e => e.keepsNesting

end

theorem Expr.not_isTypeTest {e : Expr} (h : infixLevel wordPrecedence < e.level) :
    e.isTypeTest = false := by
  cases e with
  | instanceOf => exact absurd h (Nat.lt_irrefl _)
  | _ => rfl

theorem Expr.le_bound {e : Expr} {k : Nat} (h : k ≤ e.level) (hk : k ≤ prefixLevel)
    (ht : e.isTypeTest = false) : k ≤ e.bound := by
  unfold bound
  split
  · exact hk
  · rw [ht]
    exact h

theorem Expr.le_bound_of_le {e : Expr} {k : Nat} (h : k ≤ e.level) (hk : k ≤ conditionalLevel) :
    k ≤ e.bound := by
  unfold bound
  split
  · exact Nat.le_trans hk (by decide)
  · split
    · exact hk
    · exact h

end TwinView.Script

namespace TwinView.Java

open Code
open Script (infixLevel precedence conditionalLevel assignmentLevel prefixLevel postfixLevel tightest)

variable {s : Settings}

/-! Constants. -/

def isNumber : Expr → Bool
  | .prim (.int _) _ | .prim (.long _) _ => true
  | .prim (.double x) _ => !(x.isNaN || x.isInfinite)
  | _ => false

theorem isNumber_of_isText {e : Expr} (h : e.resultType.isText) : isNumber e = false := by
  cases e with
  | prim value p => cases value <;> first | rfl | cases h
  | _ => rfl

theorem isNumeral_stringLiteral (value : String) : isNumeral (stringLiteral s value) = false := by
  simp [isNumeral, stringLiteral]

theorem isNumeral_charLiteral (c : Char) : isNumeral (charLiteral s c) = false := by
  unfold charLiteral
  split_ifs
  · exact isNumeral_stringLiteral _
  · exact isNumeral_stringLiteral _
  · exact isNumeral_stringLiteral _
  · simp [isNumeral]

theorem tightest_le_constantTree {value : Primitive} {p : Bool} (h : isNumber (.prim value p) = false) :
    tightest ≤ (constantTree s value).level := by
  have hconstant (text : String) (ht : isNumeral text = false) :
      tightest ≤ (Tree.constant text).level := by
    simp [Tree.level, ht]
  cases value with
  | null => exact hconstant "null" (by decide)
  | undefined => exact Nat.le_refl _
  | bool b =>
      cases b with
      | true => exact hconstant "true" (by decide)
      | false => exact hconstant "false" (by decide)
  | char c => exact hconstant _ (isNumeral_charLiteral c)
  | text value => exact hconstant _ (isNumeral_stringLiteral value)
  | double x =>
      have hx : (x.isNaN || x.isInfinite) = true := by
        simpa only [isNumber, Bool.not_eq_false'] using h
      simp [constantTree, hx]
  | int | long => cases h

theorem tightest_le_always {e : Expr} (h : isNumber e = false) :
    tightest ≤ (nesting s .always e).level := by
  cases e with
  | prim value p => exact tightest_le_constantTree h
  | array element size items p =>
      simp only [nesting]
      split <;> exact Nat.le_refl _
  | binary | unary | ternary => simp [nesting, bracketed, Parens.around]
  | _ => exact Nat.le_refl _

theorem prefixLevel_le_always (e : Expr) : prefixLevel ≤ (nesting s .always e).level := by
  cases h : isNumber e with
  | false => exact Nat.le_trans prefixLevel_le_tightest (tightest_le_always h)
  | true =>
      cases e with
      | prim value p => exact (fits_prim value p).level
      | _ => cases h

/-! Compiled expressions. -/

/-- The compiled expression can stand wherever the expression keeps its nesting. -/
structure Kept (s : Settings) (e : Script.Expr) (c : Expr) : Prop where
  fits : Fits s e.bound c
  number : isNumber c → e.isNumeral
  numeral : e.isNumeral → c.resultType.isText = false
  place : e.isTarget → Place s c
  /-- The object of an access may become the target of a call. -/
  object (target key : Expr) (p : Bool) (hc : c = .property target key p)
    (ht : target.resultType.isText) : Fits s tightest target
  called (he : e.isOtherMember) (target : Expr) (method : String)
    (hc : Script.calledMethod? c = some (target, method)) : method ≠ "substr"

/-- What is neither a number nor an access, which is all that needs care. -/
def isOperation : Expr → Bool
  | .property _ _ _ => false
  | c => !isNumber c

theorem isOtherMember_of_isTarget {e : Script.Expr} (h : e.isTarget = false) :
    e.isOtherMember = false := by
  cases e with
  | member => cases h
  | _ => rfl

theorem isNumber_of_isOperation {c : Expr} (h : isOperation c) : isNumber c = false := by
  cases c with
  | property => rfl
  | _ => simpa [isOperation] using h

theorem Kept.of_isOperation {e : Script.Expr} {c : Expr} (h : Fits s e.bound c) (hc : isOperation c)
    (hn : e.isNumeral = false) (ht : e.isTarget = false) : Kept s e c where
  fits := h
  number hc' := by rw [isNumber_of_isOperation hc] at hc'; cases hc'
  numeral he := by rw [hn] at he; cases he
  place he := by rw [ht] at he; cases he
  object _ _ _ he := by subst he; cases hc
  called he := by rw [isOtherMember_of_isTarget ht] at he; cases he

theorem isOperation_ite {p : Prop} [Decidable p] {a b : Expr} (ha : isOperation a) (hb : isOperation b) :
    isOperation (if p then a else b) := by
  split
  · exact ha
  · exact hb

theorem isOperation_lowerBinary (op : BinaryOp) (left right : Expr) :
    isOperation (Expr.lowerBinary op left right) := by
  unfold Expr.lowerBinary
  split <;> first | rfl | exact isOperation_ite rfl rfl

theorem isOperation_lowerUnary (op : UnaryOp) (e : Expr) : isOperation (Expr.lowerUnary op e) := by
  unfold Expr.lowerUnary
  split <;> first | rfl | exact isOperation_ite rfl rfl

theorem Kept.tight {e : Script.Expr} {c : Expr} (h : Kept s e c) (he : tightest ≤ e.level)
    (ht : c.resultType.isText) : Fits s tightest c := by
  have hn : e.isNumeral = false := by
    cases hn : e.isNumeral with
    | false => rfl
    | true => rw [h.numeral hn] at ht; cases ht
  refine h.fits.mono ?_
  rw [Script.Expr.bound, hn, Script.Expr.not_isTypeTest (Nat.lt_of_lt_of_le (by decide) he)]
  exact he

theorem isNumber_withParens (c : Expr) : isNumber c.withParens = isNumber c := by
  cases c with
  | prim value => cases value <;> rfl
  | _ => rfl

theorem resultType_withParens (c : Expr) : c.withParens.resultType = c.resultType := by
  cases c <;> rfl

theorem Kept.parens {e : Script.Expr} {c : Expr} (h : Kept s e c) (i : Nat) :
    Kept s (.parens i e) c.withParens where
  fits := by
    refine ⟨h.fits.layered.setParens true, ?_⟩
    rw [nesting_withParens, Script.Expr.bound]
    split
    · exact prefixLevel_le_always c
    · next hn =>
        refine tightest_le_always ?_
        cases hc : isNumber c with
        | false => rfl
        | true => exact absurd (h.number hc) hn
  number hc := h.number (isNumber_withParens c ▸ hc)
  numeral he := by
    rw [resultType_withParens]
    exact h.numeral he
  place he := by cases he
  object target key p hc := by
    cases c with
    | property target' key' p' =>
        cases hc
        exact h.object _ _ _ rfl
    | _ => cases hc
  called he := by cases he

theorem kept_property {e : Script.Expr} {target key : Expr} (hb : e.bound = tightest)
    (hn : e.isNumeral = false) (ht : Layered s target) (hk : Layered s key)
    (ho : target.resultType.isText → Fits s tightest target)
    (hm : e.isOtherMember → ∀ k, key.primitive? = some k → k.toText ≠ "substr") :
    Kept s e (.propertyOf target key) where
  fits := hb ▸ fits_propertyOf ht hk
  number hc := by cases hc
  numeral he := by rw [hn] at he; cases he
  place _ := ⟨(fits_propertyOf ht hk).layered, Or.inl rfl⟩
  object _ _ _ hc := by
    cases hc
    exact ho
  called he _ _ hc := by
    obtain ⟨k, hk, hc⟩ := Option.map_eq_some_iff.1 hc
    cases hc
    exact hm he k hk

theorem fits_ensureText {target : Expr} (hl : Layered s target)
    (ht : target.resultType.isText → Fits s tightest target) : Fits s tightest target.ensureText := by
  unfold Expr.ensureText
  split
  · next h => exact ht h
  · exact fits_helper _ _ (allLayered_one hl)

theorem isOperation_ensureText (target : Expr) : isOperation target.ensureText := by
  unfold Expr.ensureText
  split
  · next h =>
      have hn := isNumber_of_isText h
      cases target with
      | property => cases h
      | _ => simp [isOperation, hn]
  · rfl

theorem fits_of_methodCall? {target c : Expr} {method : String} {args : List Expr}
    (hl : Layered s target) (ht : target.resultType.isText → Fits s tightest target)
    (ha : AllLayered s args)
    (hsum : method = "substr" → ∀ start length rest, args = start :: length :: rest →
      Layered s (Expr.lowerBinary (.arith .add) start length))
    (h : Script.methodCall? target method args = some c) : Fits s tightest c ∧ isOperation c := by
  have hcall (args : List Expr) (ha : AllLayered s args) :=
    fits_invokeOn .string "substring" (fits_ensureText hl ht) ha
  cases Script.callCode_of_methodCall? h with
  | toString => exact ⟨fits_ensureText hl ht, isOperation_ensureText target⟩
  | substring => exact ⟨hcall _ ha, rfl⟩
  | substr =>
      refine ⟨hcall _ ?_, rfl⟩
      unfold Script.withEnd
      split
      · next start length rest => exact ⟨ha.1, hsum rfl start length rest rfl, ha.2.2⟩
      · exact ha

theorem fits_of_typeTest? {target c : Expr} {name : String} (ht : Fits s tightest target)
    (h : Script.typeTest? target name = some c) : Fits s conditionalLevel c ∧ isOperation c := by
  have hnull : Fits s (infixLevel (precedence (.compare .identical)))
      (Expr.operate (.compare .identical) target .null) :=
    (ht.mono (by decide)).operate rfl ((fits_prim .null false).mono (by decide))
  obtain ⟨method, -, rfl⟩ := Script.typeTest?_eq_some h
  have hclass : Fits s tightest (Expr.invokeOn .classRef target "getClass" []) :=
    fits_invokeOn _ _ ht True.intro
  refine ⟨.either rfl (hnull.layered.withParens_operate.mono (by decide))
    (fits_prim (.bool false) false).layered ?_, rfl⟩
  exact (fits_helper _ method (allLayered_one hclass.layered)).mono (by decide)

/-! Compiling. -/

open Script (Gives compileExpr)

theorem kept_name {c : Expr} (i : Nat) (name : String) (h : Place s c) (hc : isOperation c) :
    Kept s (.name i name) c where
  fits := h.fits
  number hn := by rw [isNumber_of_isOperation hc] at hn; cases hn
  numeral he := by cases he
  place _ := h
  object _ _ _ he := by subst he; cases hc
  called he := by cases he

theorem kept_of_nameCode {c : Expr} (h : Script.NameCode c) (i : Nat) (name : String) :
    Kept s (.name i name) c := by
  cases h with
  | undefined | nan | infinity => exact kept_name i name ⟨(fits_prim _ false).layered, Or.inr rfl⟩ rfl
  | variableRef _ given => exact kept_name i name ⟨(fits_variableRef _ given).layered, Or.inr rfl⟩ rfl
  | extra name' => exact kept_name i name ⟨(fits_extra name' _).layered, Or.inl rfl⟩ rfl

theorem kept_number (i : Nat) (x : Double) : Kept s (.number i x) (Expr.number x) where
  fits := fits_prim _ _
  number _ := rfl
  numeral _ := by
    unfold Expr.number Primitive.ofDouble
    split
    · split_ifs <;> rfl
    · rfl
  place he := by cases he
  object _ _ _ hc := by cases hc
  called he := by cases he

theorem fits_tight_const {value : Primitive} (h : isNumber (Expr.const value) = false) :
    Fits s tightest (Expr.const value) :=
  ⟨(fits_prim value false).layered, tightest_le_constantTree h⟩

theorem kept_unary {operand : Script.Expr} {c : Expr} (i : Nat) (op : UnaryOp) (h : Kept s operand c)
    (hl : (Script.Expr.unary i op operand).isLayered) (hk : (Script.Expr.unary i op operand).keepsNesting) :
    Kept s (.unary i op operand) (Expr.lowerUnary op c) := by
  simp only [Script.Expr.isLayered, Script.Expr.keepsNesting, Bool.and_eq_true, Bool.or_eq_true,
    decide_eq_true_eq, Bool.not_eq_true'] at hl hk
  refine .of_isOperation ?_ (isOperation_lowerUnary op c) rfl rfl
  change Fits s (if op.isPost then postfixLevel else prefixLevel) (Expr.lowerUnary op c)
  cases hstep : op.isStep with
  | true => exact (h.place (hk.1.resolve_left (by simp [hstep]))).lowerUnary hstep
  | false =>
      have hpost : op.isPost = false := by
        cases op <;> first | rfl | cases hstep
      rw [hpost] at hl ⊢
      refine Fits.lowerUnary hstep (h.fits.mono (Script.Expr.le_bound hl.1 (Nat.le_refl _) ?_))
      exact Script.Expr.not_isTypeTest (Nat.lt_of_lt_of_le (by decide) hl.1)

theorem kept_binary {left right : Script.Expr} {l r : Expr} (i : Nat) (op : BinaryOp) (h : Kept s left l)
    (h' : Kept s right r) (hl : (Script.Expr.binary i op left right).isLayered)
    (hk : (Script.Expr.binary i op left right).keepsNesting) :
    Kept s (.binary i op left right) (Expr.lowerBinary op l r) := by
  simp only [Script.Expr.isLayered, Script.Expr.keepsNesting, Bool.and_eq_true] at hl hk
  refine .of_isOperation ?_ (isOperation_lowerBinary op l r) rfl rfl
  change Fits s (if op.isAssignment then assignmentLevel else infixLevel (precedence op)) _
  have hinfix (hop : op.isAssignment = false) (ht : left.isTypeTest = false)
      (ht' : right.isTypeTest = false) :
      Fits s (infixLevel (precedence op)) (Expr.lowerBinary op l r) := by
    have hlt := infixLevel_lt op
    simp only [hop, Bool.false_eq_true, if_false, Bool.and_eq_true, decide_eq_true_eq] at hl
    exact .lowerBinary hop (h.fits.mono (Script.Expr.le_bound hl.1.1.1 (Nat.le_of_lt hlt) ht))
      (h'.fits.mono (Script.Expr.le_bound hl.1.1.2 hlt ht'))
  have htarget (hop : op.isAssignment) : left.isTarget := by
    rw [if_pos hop, Bool.and_eq_true] at hl
    exact hl.1.1.1
  cases op with
  | assign => exact (h.place (htarget rfl)).lowerAssign h'.fits.layered
  | update base =>
      exact (h.place (htarget rfl)).lowerUpdate (h'.fits.mono (of_decide_eq_true hk.1.1))
  | arith | and | or | compare =>
      have htests : left.isTypeTest = false ∧ right.isTypeTest = false := by simpa using hk.1.1
      exact hinfix rfl htests.1 htests.2

theorem allLayered_of_kept {es : List Script.Expr} {cs : List Expr} (h : List.Forall₂ (Kept s) es cs) :
    AllLayered s cs := by
  induction h with
  | nil => exact True.intro
  | cons h _ ih => exact ⟨h.fits.layered, ih⟩

theorem kept_call {target : Script.Expr} {args : List Script.Expr} {callee object c : Expr}
    {method : String} {cs : List Expr} (i : Nat) (h : Kept s target callee)
    (hm : Script.calledMethod? callee = some (object, method)) (ha : List.Forall₂ (Kept s) args cs)
    (hk : target.isOtherMember || Script.canAddUp args)
    (hc : Script.methodCall? object method cs = some c) : Kept s (.call i target args) c := by
  obtain ⟨value, p, q, rfl, -⟩ := Script.calledMethod?_eq_some hm
  have hlayered : Layered s object := h.fits.layered.2.1
  have hsum (hmethod : method = "substr") (start length : Expr) (rest : List Expr)
      (he : cs = start :: length :: rest) :
      Layered s (Expr.lowerBinary (.arith .add) start length) := by
    rcases Bool.or_eq_true _ _ ▸ hk with hother | hfits
    · exact absurd hmethod (h.called hother _ _ hm)
    · subst he
      cases ha with
      | cons hstart ha =>
          cases ha with
          | cons hlength _ =>
              simp only [Script.canAddUp, Bool.and_eq_true, decide_eq_true_eq] at hfits
              exact (Fits.lowerBinary rfl (hstart.fits.mono hfits.1)
                (hlength.fits.mono hfits.2)).layered
  obtain ⟨hfits, hop⟩ :=
    fits_of_methodCall? hlayered (h.object _ _ _ rfl) (allLayered_of_kept ha) hsum hc
  exact .of_isOperation hfits hop rfl rfl

theorem kept_literal {e : Script.Expr} {value : Primitive} (h : Script.IsLiteral e value) :
    Kept s e (Expr.const value) := by
  cases h with
  | number i x => exact kept_number i x
  | text | bool | null => exact .of_isOperation (fits_tight_const rfl) rfl rfl rfl

theorem kept_array {e : Script.Expr} (size : Nat) {items : List Expr} (h : AllLayered s items)
    (hb : e.bound = tightest) (hn : e.isNumeral = false) (ht : e.isTarget = false) :
    Kept s e (Expr.array .object size items false) := by
  refine .of_isOperation ?_ rfl hn ht
  rw [hb]
  exact fits_array .object size h false

/-- A compiled expression can stand where the expression can, if that is layered and keeps its nesting. -/
def KeptIf (s : Settings) (e : Script.Expr) (c : Expr) : Prop := e.isLayered → e.keepsNesting → Kept s e c

theorem keptAll {es : List Script.Expr} {cs : List Expr} (h : List.Forall₂ (KeptIf s) es cs)
    (hl : Script.areLayered es) (hk : Script.allKeepNesting es) : List.Forall₂ (Kept s) es cs := by
  induction h with
  | nil => exact .nil
  | cons h _ ih =>
      simp only [Script.areLayered, Bool.and_eq_true] at hl
      simp only [Script.allKeepNesting, Bool.and_eq_true] at hk
      exact .cons (h hl.1.2 hk.1) (ih hl.2 hk.2)

theorem allLayered_values {props : List (Script.PropertyKey × Script.Expr)} {cs : List Expr}
    (h : Script.EachValue (KeptIf s) props cs) (hl : Script.areLayeredProps props)
    (hk : Script.propsKeepNesting props) : AllLayered s cs := by
  induction h with
  | nil => exact True.intro
  | cons _ h _ ih =>
      simp only [Script.areLayeredProps, Bool.and_eq_true] at hl
      simp only [Script.propsKeepNesting, Bool.and_eq_true] at hk
      exact ⟨(fits_prim _ _).layered, (h hl.1.2 hk.1).fits.layered, ih hl.2 hk.2⟩

theorem carries_keptIf : Script.Carries (fun _ => True) (KeptIf s) where
  name usage i name _ :=
    ((Script.nameCode_compileName usage name).mono fun _ h _ _ => kept_of_nameCode h i name).within
  literal h _ _ := kept_literal h
  parens i h hl hk := (h hl hk).parens i
  member i name h hl hk := by
    simp only [Script.Expr.isLayered, Bool.and_eq_true, decide_eq_true_eq] at hl
    have ht := h hl.2 hk
    refine kept_property rfl rfl ht.fits.layered (fits_prim _ _).layered (ht.tight hl.1) ?_
    intro hm k hkey
    cases hkey
    simpa [Script.Expr.isOtherMember, Primitive.toText] using hm
  index i h hkey hl hk := by
    simp only [Script.Expr.isLayered, Bool.and_eq_true, decide_eq_true_eq] at hl
    simp only [Script.Expr.keepsNesting, Bool.and_eq_true] at hk
    have ht := h hl.1.2 hk.1
    exact kept_property rfl rfl ht.fits.layered (hkey hl.2 hk.2).fits.layered (ht.tight hl.1.1) nofun
  call i _ h hm ha hc hl hk := by
    simp only [Script.Expr.isLayered, Bool.and_eq_true] at hl
    simp only [Script.Expr.keepsNesting, Bool.and_eq_true] at hk
    exact kept_call i (h hl.1.2 hk.1.2) hm (keptAll ha hl.2 hk.2) hk.1.1 hc
  newSize _ _ size _ _ _ := kept_array size True.intro rfl rfl rfl
  newItems _ _ h hl hk := by
    simp only [Script.Expr.isLayered, Bool.and_eq_true] at hl
    exact kept_array 0 (allLayered_of_kept (keptAll h hl.2 hk)) rfl rfl rfl
  unary i op _ h hl hk := by
    have hl' := hl
    have hk' := hk
    simp only [Script.Expr.isLayered, Script.Expr.keepsNesting, Bool.and_eq_true] at hl' hk'
    exact kept_unary i op (h hl'.2 hk'.2) hl hk
  typeOf _ h hl hk := by
    simp only [Script.Expr.isLayered, Bool.and_eq_true] at hl
    refine .of_isOperation ?_ rfl rfl rfl
    exact (fits_helper _ _ (allLayered_one (h hl.2 hk).fits.layered)).mono prefixLevel_le_tightest
  binary i op _ h h' hl hk := by
    have hl' := hl
    have hk' := hk
    simp only [Script.Expr.isLayered, Script.Expr.keepsNesting, Bool.and_eq_true] at hl' hk'
    exact kept_binary i op (h hl'.1.2 hk'.1.2) (h' hl'.2 hk'.2) hl hk
  isIn _ h h' hl hk := by
    simp only [Script.Expr.isLayered, Script.Expr.keepsNesting, Bool.and_eq_true] at hl hk
    refine .of_isOperation ?_ rfl rfl rfl
    exact (fits_helper _ _ (allLayered_two (h' hl.2 hk.2).fits.layered (h hl.1.2 hk.1).fits.layered)).mono
      (by decide : infixLevel Script.wordPrecedence ≤ tightest)
  instanceOf _ _ h hc hl hk := by
    simp only [Script.Expr.isLayered, Script.Expr.keepsNesting, Bool.and_eq_true,
      decide_eq_true_eq] at hl hk
    obtain ⟨hfits, hop⟩ := fits_of_typeTest? ((h hl.1.2 hk.2).fits.mono hk.1) hc
    exact .of_isOperation hfits hop rfl rfl
  cond _ ht hy hn hl hk := by
    simp only [Script.Expr.isLayered, Script.Expr.keepsNesting, Bool.and_eq_true, decide_eq_true_eq,
      Bool.not_eq_true'] at hl hk
    have ht := ht hl.1.1.2 hk.1.1.2
    have hn := hn hl.2 hk.2
    refine .of_isOperation ?_ rfl rfl rfl
    exact .lowerTernary
      (ht.fits.mono (Script.Expr.le_bound hl.1.1.1.1.1 (by decide) hk.1.1.1.1))
      (hy hl.1.2 hk.1.2).fits.layered
      (hn.fits.mono (Script.Expr.le_bound_of_le hk.1.1.1.2 (Nat.le_refl _)))
  object _ h hl hk := .of_isOperation (fits_helper _ _ (allLayered_values h hl hk)) rfl rfl rfl
  array _ h hl hk := kept_array 0 (allLayered_of_kept (keptAll h hl hk)) rfl rfl rfl

/-! Statements. -/

def exprs : Stmt → List Expr
  | .expr e _ => [e]
  | .var d => d.init.toList
  | .vars ds => ds.flatMap fun d => d.init.toList
  | .cond test _ _ | .loop _ test _ _ => [test]
  | .ret value => value.toList
  | .comment _ => []

/-- Every expression of the statements, and every expression inside it, has the property. -/
def EveryIn (P : Expr → Prop) (body : List Stmt) : Prop :=
  ∀ st ∈ Stmt.allOf body, ∀ e ∈ exprs st, e.Every P

variable {P : Expr → Prop}

theorem everyIn_nil : EveryIn P [] := by
  simp [EveryIn, Stmt.allOf]

theorem EveryIn.append {a b : List Stmt} (ha : EveryIn P a) (hb : EveryIn P b) : EveryIn P (a ++ b) :=
  Stmt.forall_allOf_append.2 ⟨ha, hb⟩

theorem everyIn_expr {e : Expr} (h : e.Every P) (origin : Origin) : EveryIn P [.expr e origin] :=
  Stmt.forall_allOf_expr.2 (by simpa [exprs] using h)

theorem everyIn_ret {e : Expr} (h : e.Every P) : EveryIn P [.ret (some e)] :=
  Stmt.forall_allOf_ret.2 (by simpa [exprs] using h)

theorem everyIn_declStmt {ds : List VarDecl} (h : ∀ d ∈ ds, ∀ e ∈ d.init, e.Every P) :
    EveryIn P [Script.declStmt ds] := by
  unfold Script.declStmt
  split
  · simpa [EveryIn, Stmt.allOf, Stmt.withInner, exprs] using h
  · intro st hst e he
    obtain rfl := List.mem_singleton.1 hst
    obtain ⟨d, hd, he⟩ := List.mem_flatMap.1 he
    exact h d hd e (Option.mem_toList.1 he)

theorem everyIn_loop {init : Option Stmt} {test : Expr} {step : Option Expr} {body : List Stmt}
    (hi : EveryIn P init.toList) (ht : test.Every P) (hs : ∀ e ∈ step, e.Every P) (hb : EveryIn P body) :
    EveryIn P [.loop init test (step.map fun e => .expr e) body] := by
  refine Stmt.forall_allOf_loop.2 ⟨by simpa [exprs] using ht, hi, Stmt.forall_allOf_step.2 ?_, hb⟩
  intro e he
  simpa [exprs] using hs e he

abbrev LayeredIn (s : Settings) (body : List Stmt) : Prop :=
  EveryIn (fun e => (nesting s .flagged e).isLayered) body

open Script (compileProgram isLayeredOption optionKeepsNesting)

theorem layered_option {e : Option Script.Expr} {c : Option Expr} (h : Option.Rel (KeptIf s) e c)
    (hl : isLayeredOption e) (hk : optionKeepsNesting e) : ∀ x ∈ c, Layered s x := by
  cases h with
  | none => simp
  | some h => simpa using (h hl hk).fits.layered

theorem layered_test {e : Option Script.Expr} {c : Expr} (h : Script.TestCode (KeptIf s) e c)
    (hl : isLayeredOption e) (hk : optionKeepsNesting e) : Layered s c := by
  cases h with
  | none => exact (fits_prim _ _).layered
  | some h => exact (h hl hk).fits.layered

theorem isLayered_init {d : Script.Decl} {rest : List Script.Decl}
    (h : Script.areLayeredDecls (d :: rest)) : isLayeredOption d.init ∧ Script.areLayeredDecls rest := by
  obtain ⟨name, value, start⟩ := d
  cases value with
  | none => exact ⟨rfl, h⟩
  | some e =>
      simp only [Script.areLayeredDecls, Bool.and_eq_true] at h
      exact ⟨h.1.2, h.2⟩

theorem layered_decls {ds : List Script.Decl} {cs : List VarDecl}
    (h : List.Forall₂ (Script.DeclCode (KeptIf s)) ds cs) (hl : Script.areLayeredDecls ds)
    (hk : Script.declsKeepNesting ds) : ∀ d ∈ cs, ∀ c ∈ d.init, Layered s c := by
  induction h with
  | nil => simp
  | cons h _ ih =>
      simp only [Script.declsKeepNesting, Bool.and_eq_true] at hk
      obtain ⟨hinit, hrest⟩ := isLayered_init hl
      exact List.forall_mem_cons.2 ⟨layered_option h hinit hk.1, ih hrest hk.2⟩

theorem layered_head {init : Option Script.Stmt} {head : Option Stmt}
    (h : Script.HeadCode (KeptIf s) init head) (hl : ∀ st ∈ init, st.isLayered)
    (hk : ∀ st ∈ init, st.keepsNesting) : LayeredIn s head.toList := by
  cases h with
  | expr _ h => exact everyIn_expr (h (hl _ rfl) (hk _ rfl)).fits.layered _
  | @var _ ds _ h =>
      have hdecls : !ds.isEmpty && Script.areLayeredDecls ds := hl _ rfl
      exact everyIn_declStmt (layered_decls h (Bool.and_eq_true _ _ ▸ hdecls).2 (hk _ rfl))
  | none => exact everyIn_nil

theorem carries_layered : Script.CarriesStmts (KeptIf s)
    (fun st code => st.isLayered → st.keepsNesting → LayeredIn s code)
    fun body code => Script.Stmt.areLayered body → Script.Stmt.allKeepNesting body → LayeredIn s code where
  expr _ h hl hk := everyIn_expr (h hl hk).fits.layered _
  var _ h hl hk := by
    simp only [Script.Stmt.isLayered, Bool.and_eq_true] at hl
    exact everyIn_declStmt (layered_decls h hl.2 hk)
  retNone _ _ _ := everyIn_ret (fits_prim _ _).layered
  retSome _ h hl hk := everyIn_ret (h hl hk).fits.layered
  block _ h := h
  loop {init _ test _ update _ body _} _ _ hi ht hs hb hl hk := by
    have hl' : (∀ st ∈ init, st.isLayered) ∧ isLayeredOption test ∧ isLayeredOption update ∧
        Script.Stmt.areLayered body := by
      cases init <;> simpa [Script.Stmt.isLayered, and_assoc] using hl
    have hk' : (∀ st ∈ init, st.keepsNesting) ∧ optionKeepsNesting test ∧ optionKeepsNesting update ∧
        Script.Stmt.allKeepNesting body := by
      cases init <;> simpa [Script.Stmt.keepsNesting, and_assoc] using hk
    exact everyIn_loop (layered_head hi hl'.1 hk'.1) (layered_test ht hl'.2.1 hk'.2.1)
      (layered_option hs hl'.2.2.1 hk'.2.2.1) (hb hl'.2.2.2 hk'.2.2.2)
  empty _ _ _ := everyIn_nil
  nil _ _ := everyIn_nil
  cons h hr hl hk := by
    simp only [Script.Stmt.areLayered, Script.Stmt.allKeepNesting, Bool.and_eq_true] at hl hk
    exact (h hl.1 hk.1).append (hr hl.2 hk.2)

theorem layered_compileProgram (program : List Script.Stmt) (hl : Script.Stmt.areLayered program)
    (hk : Script.Stmt.allKeepNesting program) :
    Gives (compileProgram program) fun ms => ∀ m ∈ ms, LayeredIn s m.body := by
  have hexpr := carries_keptIf (s := s)
  refine (carries_layered.gives_compileProgram hexpr.gives_compileExpr program).mono fun ms h => ?_
  induction h with
  | nil => simp
  | function _ hm _ ih =>
      simp only [Script.Stmt.areLayered, Script.Stmt.allKeepNesting, Bool.and_eq_true] at hl hk
      refine List.forall_mem_cons.2 ⟨?_, ih hl.2 hk.2⟩
      obtain ⟨code, hcode, hbody | hbody⟩ := hm.body
      · rw [hbody]
        exact hcode hl.1 hk.1
      · rw [hbody]
        exact (hcode hl.1 hk.1).append (everyIn_ret (fits_prim _ _).layered)
  | empty _ _ ih => exact ih hl hk

theorem areLayered_of_parse {source : String} {program : List Script.Stmt}
    (h : Script.parse source = .ok program) : Script.Stmt.areLayered program := by
  unfold Script.parse at h
  simp only [bind_eq_ok] at h
  obtain ⟨ts, -, h⟩ := h
  exact ((Script.sound _ _).program h).2

def EveryExpr (P : Expr → Prop) (t : Script.Compiled) : Prop := ∀ m ∈ t.methods, EveryIn P m.body

theorem everyExpr_congr {P Q : Expr → Prop} (h : ∀ e, P e ↔ Q e) (t : Script.Compiled) :
    EveryExpr P t ↔ EveryExpr Q t := by
  have : P = Q := funext fun e => propext (h e)
  rw [this]

/-- The expressions of a script are read back if and only if no operand that is written without
parentheses binds more loosely than its position requires; and they are if that holds of the operands
that lowering puts under other operators. -/
theorem readsBack_iff_layered {names : Names} {source : String} {t : Script.Compiled} (s : Settings)
    (h : (Script.compile names source).1 = .ok t) :
    (EveryExpr (ReadsBack s) t ↔ EveryExpr (fun e => (nesting s .flagged e).isLayered) t) ∧
    ∀ program, Script.parse source = .ok program → Script.Stmt.allKeepNesting program →
      EveryExpr (ReadsBack s) t := by
  have hiff := everyExpr_congr (fun e => readsBack_iff (s := s) (e := e)) t
  refine ⟨hiff, fun program hp hk => hiff.2 ?_⟩
  obtain ⟨program', _, hp', hy, -⟩ := Script.yields_of_compile h
  cases hp.symm.trans hp'
  exact layered_compileProgram program (areLayered_of_parse hp) hk _ _ _ hy

/-- A test of a type, a spelled out assignment and a sum of arguments, with the parentheses that they
need. -/
theorem readsBack_iff_layered_parenthesized :
    ∃ t, (Script.compile {}
        "function(){return (data instanceof Array) ? key.substr(1, 2) : (data -= (1 - 2));}").1 = .ok t ∧
      t.methods.length = 1 ∧ EveryExpr (ReadsBack {}) t := by
  generalize hs :
    "function(){return (data instanceof Array) ? key.substr(1, 2) : (data -= (1 - 2));}" = source
  have hok : (Script.compile {} source).1.toOption.any (fun t => t.methods.length = 1) ∧
      (Script.parse source).toOption.any Script.Stmt.allKeepNesting := by
    subst hs
    decide +kernel
  obtain ⟨t, h, hone⟩ := exists_ok_of_any hok.1
  obtain ⟨program, hp, hkeep⟩ := exists_ok_of_any hok.2
  exact ⟨t, h, of_decide_eq_true hone, (readsBack_iff_layered {} h).2 program hp hkeep⟩

/-- A difference on the right of a spelled out assignment: its first number is taken away alone. -/
theorem not_readsBack_difference :
    ∃ t m e, (Script.compile {} "function(){return data -= 1 - 2;}").1 = .ok t ∧ m ∈ t.methods ∧
      m.inline? = some e ∧
      expression {} .flagged e = "(data = (DuelData.coerceNumber(data) - 1 - 2))" ∧ ¬ ReadsBack {} e := by
  generalize hs : "function(){return data -= 1 - 2;}" = source
  have hbad : (Script.compile {} source).1.toOption.any (fun t => t.methods.any fun m =>
      m.inline?.any fun e =>
        expression {} .flagged e = "(data = (DuelData.coerceNumber(data) - 1 - 2))" &&
          !(nesting {} .flagged e).isLayered) := by
    subst hs
    decide +kernel
  obtain ⟨t, h, hbad⟩ := exists_ok_of_any hbad
  simp only [List.any_eq_true, Option.any_eq_true, Bool.and_eq_true, decide_eq_true_eq,
    Bool.not_eq_true'] at hbad
  obtain ⟨m, hm, e, he, htext, hbad⟩ := hbad
  refine ⟨t, m, e, h, hm, he, htext, fun hr => ?_⟩
  rw [readsBack_iff.1 hr] at hbad
  cases hbad

end TwinView.Java
