import Mathlib.Tactic.SplitIfs
import TwinView.Proofs.Java.Scripts

/-!
What lowering sees of a compiled expression: its static type, and the constant that it is. Both can be
told from the script alone, since a name has the same type whether it is a local or looked up, so the
rules that lowering applies do not depend on what was compiled before.
-/

namespace TwinView.Code

structure Face where
  type : Ty
  constant : Option Primitive := none

def Expr.face (e : Expr) : Face := ⟨e.resultType, e.primitive?⟩

def Ty.fitting (slot value : Ty) : Ty :=
  if slot.accepts value then value
  else if slot.isNumber then if value.isNumber then value else .double
  else if slot.isText then if value.isText then value else .string
  else if slot.isBoolean then if value.isBoolean then value else .boolean
  else value

def BinaryOp.type (op : BinaryOp) (left right : Ty) : Ty :=
  match op with
  | .assign => Expr.eitherType left (left.fitting right)
  | .arith .add => if left.toPrimitive.isText || right.toPrimitive.isText then .string else .number
  | .arith _ => .number
  | .update .add => Expr.eitherType left (if left.toPrimitive.isText then .string else .number)
  | .update _ => if left.isNumber then .number else Expr.eitherType left .number
  | .and | .or => if left.isBoolean && right.isBoolean then .boolean else .object
  | .compare _ => .boolean

def UnaryOp.type (op : UnaryOp) (operand : Ty) : Ty :=
  if op = .not then .boolean
  else if op.isStep && !operand.isNumber then
    if op.isPost then .double else Expr.eitherType operand .number
  else .number

end TwinView.Code

namespace TwinView.Script

open Code (Face Primitive)

def constantFace (value : Primitive) : Face := ⟨value.type, some value⟩

/-- A name: a constant, a bound name with its type, or whatever. -/
def nameFace (name : String) : Face :=
  match name with
  | "undefined" => constantFace .undefined
  | "NaN" => constantFace (.ofDouble Double.nan)
  | "Infinity" => constantFace (.ofDouble (Double.infinity false))
  | "index" | "count" => ⟨.int, none⟩
  | "key" => ⟨.string, none⟩
  | _ => ⟨.object, none⟩

mutual

def Expr.face : Expr → Face
  | .name _ n => nameFace n
  | .number _ x => constantFace (.ofDouble x)
  | .text _ s => constantFace (.text s)
  | .bool _ b => constantFace (.bool b)
  | .null _ => constantFace .null
  | .parens _ inner => inner.face
  | .call _ target _ =>
    match target.callee? with
    | some ("toString", o) => if o.type.isText then o else ⟨.string, none⟩
    | _ => ⟨.string, none⟩
  | .new _ _ _ | .array _ _ => ⟨.list, none⟩
  | .unary _ op operand => ⟨op.type operand.face.type, none⟩
  | .typeOf _ _ => ⟨.string, none⟩
  | .binary _ op left right => ⟨op.type left.face.type right.face.type, none⟩
  | .isIn _ _ _ | .instanceOf _ _ _ => ⟨.boolean, none⟩
  | .cond _ _ yes no => ⟨Code.Expr.eitherType yes.face.type no.face.type, none⟩
  | .object _ _ => ⟨.map, none⟩
  | .member _ _ _ | .index _ _ _ | .this _ | .comma _ _ | .function _ _ => ⟨.object, none⟩

/-- The name of the method if the expression is called, and what is seen of its object. -/
def Expr.callee? : Expr → Option (String × Face)
  | .member _ target method => some (method, target.face)
  | .index _ target key => key.face.constant.map fun k => (k.toText, target.face)
  | .parens _ inner => inner.callee?
  | _ => none

end

end TwinView.Script

namespace TwinView.Code.Expr

variable {e left right : Expr}

/-- Operators and calls: what is neither a constant nor an access. -/
def isCompound : Expr → Bool
  | .binary _ _ _ _ | .unary _ _ _ | .ternary _ _ _ _ | .invoke _ _ _ _ _ | .array _ _ _ _ => true
  | _ => false

theorem primitive?_of_isCompound (h : e.isCompound) : e.primitive? = none := by
  cases e <;> first | rfl | cases h

theorem calledMethod?_of_isCompound (h : e.isCompound) : Script.calledMethod? e = none := by
  cases e <;> first | rfl | cases h

theorem isCompound_ite {c : Prop} [Decidable c] (hl : left.isCompound) (hr : right.isCompound) :
    (if c then left else right).isCompound := by
  split
  · exact hl
  · exact hr

theorem isCompound_lowerBinary (op : BinaryOp) (left right : Expr) :
    (lowerBinary op left right).isCompound := by
  unfold lowerBinary
  split <;> first | rfl | exact isCompound_ite rfl rfl

theorem isCompound_lowerUnary (op : UnaryOp) (e : Expr) : (lowerUnary op e).isCompound := by
  unfold lowerUnary
  split <;> first | rfl | exact isCompound_ite rfl rfl

@[simp] theorem face_setParens (p : Bool) (e : Expr) : (e.setParens p).face = e.face := by
  cases e <;> rfl

theorem face_of_isCompound (h : e.isCompound) : e.face = ⟨e.resultType, none⟩ := by
  rw [face, primitive?_of_isCompound h]

theorem resultType_ensureType (slot : Ty) (e : Expr) :
    (e.ensureType slot).resultType = slot.fitting e.resultType := by
  unfold ensureType Ty.fitting ensureNumber ensureText ensureBoolean
  split_ifs <;> rfl

theorem resultType_ensureText (e : Expr) :
    e.ensureText.resultType = if e.resultType.isText then e.resultType else .string := by
  unfold ensureText
  split_ifs <;> rfl

theorem resultType_assignment (op : Arith) (target left right : Expr) :
    (assignment (.arith op) target left right).resultType =
      eitherType target.resultType (operate (.arith op) left right).resultType := by
  simp only [assignment, withParens, resultType_setParens, operate, resultType]

theorem isText_of_isNumber {t : Ty} (h : t.isNumber) : t.isText = false := by
  cases t <;> first | rfl | cases h

theorem resultType_of_isNumber (op : Arith) (hl : left.resultType.isNumber)
    (hr : right.resultType.isNumber) : (operate (.arith op) left right).resultType = .number := by
  cases op <;>
    simp [operate, resultType, sumType, isText_of_isNumber hl, isText_of_isNumber hr]

theorem resultType_numbers (op : Arith) (left right : Expr) :
    (operate (.arith op) left.ensureNumber right.ensureNumber).resultType = .number :=
  resultType_of_isNumber op (isNumber_ensureNumber left) (isNumber_ensureNumber right)

theorem resultType_texts (left right : Expr) :
    (operate (.arith .add) left.ensureText right).resultType = .string := by
  have hl : left.ensureText.resultType.isText := by
    rw [resultType_ensureText]
    split_ifs with h
    · exact h
    · rfl
  simp [operate, resultType, sumType, hl]

theorem resultType_of_isStored (h : e.isStored) : e.resultType = .object := by
  cases e <;> first | rfl | cases h

/-- Only what has a number as its type keeps a compound assignment; what is stored has none. -/
theorem needsSpelling_eq (e : Expr) : e.needsSpelling = !e.resultType.isNumber := by
  unfold needsSpelling
  cases h : e.isStored with
  | false => rfl
  | true => simp [resultType_of_isStored h, Ty.isNumber, Ty.kind]

theorem resultType_lowerBinary (op : BinaryOp) (left right : Expr) :
    (lowerBinary op left right).resultType = op.type left.resultType right.resultType := by
  cases op with
  | assign => simp only [lowerBinary, operate, resultType, BinaryOp.type, resultType_ensureType]
  | arith op =>
      cases op with
      | add =>
          change (if left.concatenates || right.concatenates then _ else _ : Expr).resultType =
            if left.concatenates || right.concatenates then .string else .number
          split
          · exact resultType_texts _ _
          · exact resultType_numbers _ _ _
      | _ => exact resultType_numbers _ _ _
  | update op =>
      cases op with
      | add =>
          change (if left.concatenates then _ else _ : Expr).resultType =
            eitherType left.resultType (if left.concatenates then .string else .number)
          split
          · rw [resultType_assignment, resultType_texts]
          · rw [resultType_assignment, resultType_numbers]
      | _ =>
          simp only [lowerBinary, BinaryOp.type, needsSpelling_eq, Bool.not_eq_true']
          cases hn : left.resultType.isNumber with
          | true => rfl
          | false =>
              simp only [if_true, Bool.false_eq_true, if_false]
              rw [resultType_assignment, resultType_numbers]
  | and | or =>
      simp only [lowerBinary, BinaryOp.type]
      split_ifs with h
      · simp only [operate, resultType, h, if_true]
      · rfl
  | compare op =>
      unfold lowerBinary
      cases op <;> first | rfl | (dsimp only; split_ifs <;> rfl)

theorem resultType_lowerUnary (op : UnaryOp) (e : Expr) :
    (lowerUnary op e).resultType = op.type e.resultType := by
  have hbefore (op : Arith) : (stepBefore op e).resultType = eitherType e.resultType .number := by
    rw [stepBefore, resultType_assignment, resultType_of_isNumber op (isNumber_ensureNumber e) rfl]
  cases op with
  | not | bitNot | negate | plus => rfl
  | _ =>
      simp only [lowerUnary, UnaryOp.type, UnaryOp.isStep, UnaryOp.isPost]
      split_ifs with h <;> simp_all [apply, resultType, stepAfter, invokeSelf, invokeOn]

end TwinView.Code.Expr

namespace TwinView.Script

open Code (Face Primitive)

/-- The compiled expression looks as the script tells. -/
structure Seen (e : Expr) (c : Code.Expr) : Prop where
  face : c.face = e.face
  callee : ∀ object method, calledMethod? c = some (object, method) → e.callee? = some (method, object.face)

theorem Seen.of_isCompound {e : Expr} {c : Code.Expr} (h : c.isCompound)
    (ht : e.face = ⟨c.resultType, none⟩) : Seen e c where
  face := (Code.Expr.face_of_isCompound h).trans ht.symm
  callee object method hm := by
    rw [Code.Expr.calledMethod?_of_isCompound h] at hm
    cases hm

theorem seen_const {e : Expr} (value : Primitive) (h : e.face = constantFace value) :
    Seen e (.const value) := ⟨h.symm, fun _ _ hm => by cases hm⟩

theorem seen_compileName (usage : Usage) (i : Nat) (name : String) :
    Gives (compileName usage name) (Seen (.name i name)) := by
  have hcallee {c : Code.Expr} (hm : calledMethod? c = none) (object : Code.Expr) (method : String)
      (h : calledMethod? c = some (object, method)) :
      (Expr.name i name).callee? = some (method, object.face) := by
    rw [hm] at h
    cases h
  have hextra (h : nameFace name = ⟨.object, none⟩) :
      Gives (noteExtra name usage) (Seen (.name i name)) :=
    Gives.trivial.bind fun _ _ => .pure ⟨h.symm, hcallee rfl⟩
  unfold compileName
  split_ifs with hg
  · split
    iterate 3 exact .pure (seen_const _ rfl)
    next hundefined hnan hinfinity =>
      refine hextra ?_
      unfold nameFace
      split <;> first | rfl | contradiction
  · split
    · exact .pure ⟨rfl, hcallee rfl⟩
    · exact .pure ⟨rfl, hcallee rfl⟩
    · exact .pure ⟨rfl, hcallee rfl⟩
    · exact .pure ⟨rfl, hcallee rfl⟩
    · next hdata hindex hcount hkey =>
        have hface : nameFace name = ⟨.object, none⟩ := by
          unfold nameFace
          split <;> first | rfl | contradiction
        refine Gives.trivial.bind fun s _ => ?_
        split_ifs
        · exact Gives.trivial.bind fun _ _ => Gives.trivial.bind fun _ _ =>
            .pure ⟨hface.symm, hcallee rfl⟩
        · exact hextra hface

theorem Seen.parens {e : Expr} {c : Code.Expr} (h : Seen e c) (i : Nat) :
    Seen (.parens i e) c.withParens where
  face := (Code.Expr.face_setParens true c).trans h.face
  callee object method hm := by
    refine h.callee object method ?_
    cases c <;> exact hm

theorem Seen.propertyOf {e target : Expr} {c key : Code.Expr} (h : Seen target c)
    (hf : e.face = ⟨.object, none⟩)
    (hk : ∀ k, key.primitive? = some k → e.callee? = some (k.toText, target.face)) :
    Seen e (.propertyOf c key) where
  face := hf.symm
  callee object method hm := by
    obtain ⟨k, hkey, he⟩ := Option.map_eq_some_iff.1 hm
    cases he
    rw [h.face, hk k hkey]

theorem Seen.call {target : Expr} {callee object c : Code.Expr} {method : String}
    {args : List Code.Expr} (h : Seen target callee)
    (hm : calledMethod? callee = some (object, method)) (hc : methodCall? object method args = some c)
    (i : Nat) (es : List Expr) : Seen (.call i target es) c := by
  have hcallee := h.callee object method hm
  have hcall {args : List Code.Expr} (hne : method ≠ "toString") :
      Seen (.call i target es) (.invokeOn .string object.ensureText "substring" args) := by
    refine .of_isCompound rfl ?_
    rw [Expr.face, hcallee]
    split
    · next he =>
        cases he
        exact absurd rfl hne
    · rfl
  cases callCode_of_methodCall? hc with
  | toString =>
      have hface : (Expr.call i target es).face =
          if object.resultType.isText then object.face else ⟨.string, none⟩ := by
        rw [Expr.face, hcallee]
        rfl
      unfold Code.Expr.ensureText
      split_ifs with ht
      · refine ⟨by rw [hface, if_pos ht], fun object' method' hm' => ?_⟩
        -- a text is no access, so that it cannot be called
        cases object with
        | property => cases ht
        | _ => cases hm'
      · exact .of_isCompound rfl (by rw [hface, if_neg ht]; rfl)
  | substring => exact hcall (by decide)
  | substr => exact hcall (by decide)

theorem face_of_typeTest? {target c : Code.Expr} {name : String} (h : typeTest? target name = some c) :
    c.isCompound ∧ c.resultType = .boolean := by
  obtain ⟨method, -, rfl⟩ := typeTest?_eq_some h
  exact ⟨rfl, rfl⟩

theorem Seen.literal {e : Expr} {value : Primitive} (h : IsLiteral e value) : Seen e (.const value) := by
  cases h <;> exact seen_const _ rfl

theorem Seen.lowerUnary {e : Expr} {c : Code.Expr} (h : Seen e c) (i : Nat) (op : Code.UnaryOp) :
    Seen (.unary i op e) (Code.Expr.lowerUnary op c) := by
  refine .of_isCompound (Code.Expr.isCompound_lowerUnary op c) ?_
  rw [Expr.face, Code.Expr.resultType_lowerUnary, ← h.face]
  rfl

theorem Seen.lowerBinary {left right : Expr} {l r : Code.Expr} (hl : Seen left l) (hr : Seen right r)
    (i : Nat) (op : Code.BinaryOp) : Seen (.binary i op left right) (Code.Expr.lowerBinary op l r) := by
  refine .of_isCompound (Code.Expr.isCompound_lowerBinary op l r) ?_
  rw [Expr.face, Code.Expr.resultType_lowerBinary, ← hl.face, ← hr.face]
  rfl

theorem Seen.typeTest {target : Expr} {t c : Code.Expr} {name : String}
    (hc : typeTest? t name = some c) (i j : Nat) : Seen (.instanceOf i target (.name j name)) c := by
  obtain ⟨hcompound, htype⟩ := face_of_typeTest? hc
  exact .of_isCompound hcompound (by rw [htype]; rfl)

theorem carries_seen : Carries (fun _ => True) Seen where
  name usage i name _ := (seen_compileName usage i name).within
  literal h := .literal h
  parens i h := h.parens i
  member i name h := h.propertyOf rfl (by
    intro k hk
    cases hk
    rfl)
  index i h hk := h.propertyOf rfl (by
    intro k hc
    rw [Expr.callee?, ← hk.face, Code.Expr.face, hc]
    rfl)
  call i _ h hm _ hc := h.call hm hc i _
  newSize _ _ _ _ := .of_isCompound rfl rfl
  newItems _ _ _ := .of_isCompound rfl rfl
  unary i op _ h := h.lowerUnary i op
  typeOf _ _ := .of_isCompound rfl rfl
  binary i op _ hl hr := hl.lowerBinary hr i op
  isIn _ _ _ := .of_isCompound rfl rfl
  instanceOf i j _ hc := .typeTest hc i j
  cond _ _ hy hn := .of_isCompound rfl (by
    rw [Expr.face, ← hy.face, ← hn.face]
    rfl)
  object _ _ := .of_isCompound rfl rfl
  array _ _ := .of_isCompound rfl rfl

theorem seen_compileExpr (e : Expr) : Gives (compileExpr e) (Seen e) := carries_seen.gives_compileExpr e

theorem ComesFrom.seen {e : Expr} {c : Code.Expr} (h : ComesFrom e c) : Seen e c :=
  h.of_gives seen_compileExpr seen_compileName

end TwinView.Script
