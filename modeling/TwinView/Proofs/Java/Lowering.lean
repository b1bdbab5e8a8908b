import Mathlib.Tactic.SplitIfs
import TwinView.Proofs.Code.Subterms
import TwinView.Proofs.Java.Nesting

/-!
How the operators of scripts fit into each other after lowering. Calls and what stands between
parentheses fit everywhere; an operator that stays one needs operands that fit at its level.
-/

namespace TwinView.Java

open Code Code.Expr
open Script (infixLevel precedence precedence_le conditionalLevel assignmentLevel prefixLevel postfixLevel
  tightest)

variable {s : Settings} {k : Nat} {e target key left right test yes no : Expr} {args : List Expr}

@[simp] theorem isLayered_bracketed (p : Bool) (t : Tree) : (bracketed p t).isLayered = t.isLayered := by
  cases p <;> simp [bracketed, Tree.isLayered]

theorem isLayered_nesting (p q : Parens) (e : Expr) :
    (nesting s p e).isLayered = (nesting s q e).isLayered := by
  cases e <;> simp [nesting, Tree.isLayered]

theorem isLayered_setParens (p : Bool) (e : Expr) :
    (nesting s .flagged (e.setParens p)).isLayered = (nesting s .flagged e).isLayered := by
  cases e <;> simp [nesting, setParens, Tree.isLayered]

theorem nesting_withParens (e : Expr) : nesting s .flagged e.withParens = nesting s .always e := by
  cases e <;> simp [nesting, withParens, setParens, Parens.around, hasParens, expression]

def Layered (s : Settings) (e : Expr) : Prop := e.Every fun e => (nesting s .flagged e).isLayered

def AllLayered (s : Settings) (es : List Expr) : Prop :=
  EveryOf (fun e => (nesting s .flagged e).isLayered) es

theorem Layered.self (h : Layered s e) : (nesting s .flagged e).isLayered := by
  cases e with
  | prim | var | this | typeRef | extra => exact h
  | _ => exact h.1

theorem Layered.setParens (h : Layered s e) (p : Bool) : Layered s (e.setParens p) := by
  have hself := isLayered_setParens p e ▸ h.self
  cases e with
  | prim | var | this | typeRef | extra => exact hself
  | _ => exact ⟨hself, h.2⟩

theorem areLayered_argumentNestings (h : AllLayered s args) :
    Tree.areLayered (argumentNestings s args) := by
  have hmore : ∀ args, AllLayered s args → Tree.areLayered (moreNestings s args) := by
    intro args h
    induction args with
    | nil => simp [moreNestings, Tree.areLayered]
    | cons e rest ih =>
        simp [moreNestings, Tree.areLayered, Tree.assignmentLevel_le, Layered.self h.1, ih h.2]
  cases args with
  | nil => simp [argumentNestings, Tree.areLayered]
  | cons e rest =>
      cases rest with
      | nil =>
          have hself := isLayered_nesting .flagged .never e ▸ Layered.self h.1
          simp [argumentNestings, Tree.areLayered, Tree.assignmentLevel_le, hself]
      | cons e' rest =>
          simp [argumentNestings, Tree.areLayered, Tree.assignmentLevel_le, Layered.self h.1,
            hmore _ h.2]

/-- The expression may stand, as it is written, where something of this level is called for. -/
structure Fits (s : Settings) (k : Nat) (e : Expr) : Prop where
  layered : Layered s e
  level : k ≤ (nesting s .flagged e).level

theorem Layered.fits (h : Layered s e) : Fits s assignmentLevel e := ⟨h, Tree.assignmentLevel_le _⟩

theorem Fits.mono {k' : Nat} (h : Fits s k e) (hk : k' ≤ k) : Fits s k' e := 
  ⟨h.layered, Nat.le_trans hk h.level⟩

theorem Fits.ite {c : Prop} [Decidable c] (hy : Fits s k yes) (hn : Fits s k no) :
    Fits s k (if c then yes else no) := by
  split
  · exact hy
  · exact hn

theorem allLayered_one (h : Layered s e) : AllLayered s [e] := ⟨h, True.intro⟩

theorem allLayered_two (hl : Layered s left) (hr : Layered s right) : AllLayered s [left, right] :=
  ⟨hl, hr, True.intro⟩

theorem fits_invokeOn (result : Ty) (method : String) (ht : Fits s tightest target)
    (ha : AllLayered s args) : Fits s tightest (invokeOn result target method args) := by
  refine ⟨⟨?_, ht.layered, ha⟩, Nat.le_refl _⟩
  simp [nesting, Tree.isLayered, ht.level, ht.layered.self,
    areLayered_argumentNestings ha]

theorem fits_helper (result : Ty) (method : String) (ha : AllLayered s args) :
    Fits s tightest (invokeHelper result method args) :=
  fits_invokeOn result method ⟨rfl, Nat.le_refl _⟩ ha

theorem fits_self (result : Ty) (method : String) (ha : AllLayered s args) :
    Fits s tightest (invokeSelf result method args) :=
  fits_invokeOn result method ⟨rfl, Nat.le_refl _⟩ ha

theorem isLayered_selfCall {method : String} {ts : List Tree} (h : Tree.areLayered ts) :
    (selfCall method ts).isLayered := by
  simp [selfCall, Tree.isLayered, h]

theorem fits_propertyOf (ht : Layered s target) (hk : Layered s key) :
    Fits s tightest (propertyOf target key) := by
  refine ⟨⟨?_, ht, hk⟩, Nat.le_refl _⟩
  exact isLayered_selfCall (by simp [Tree.areLayered, Tree.assignmentLevel_le, ht.self, hk.self])

theorem assignmentLevel_le_tightest : assignmentLevel ≤ tightest := by decide

theorem prefixLevel_le_tightest : prefixLevel ≤ tightest := by decide

theorem fits_extra (name : String) (p : Bool) : Fits s tightest (.extra name p) := by
  refine ⟨isLayered_selfCall ?_, Nat.le_refl _⟩
  simp [Tree.areLayered, Tree.assignmentLevel_le, Tree.isLayered, assignmentLevel_le_tightest]

theorem fits_variableRef (type : Ty) (name : String) : Fits s tightest (variableRef type name) :=
  ⟨rfl, Nat.le_refl _⟩

theorem fits_prim (value : Primitive) (p : Bool) : Fits s prefixLevel (.prim value p) := by
  have hnode : (constantTree s value).isLayered ∧ prefixLevel ≤ (constantTree s value).level := by
    have hword (name : String) : prefixLevel ≤ (Tree.word name).level := prefixLevel_le_tightest
    have hconstant (text : String) : prefixLevel ≤ (Tree.constant text).level := by
      rw [Tree.level]
      split
      · exact Nat.le_refl _
      · exact prefixLevel_le_tightest
    unfold constantTree
    split
    · exact ⟨rfl, hword _⟩
    · split
      · exact ⟨rfl, hword _⟩
      · exact ⟨rfl, hconstant _⟩
    · exact ⟨rfl, hconstant _⟩
  exact ⟨hnode.1, hnode.2⟩

theorem fits_array (element : Ty) (size : Nat) (ha : AllLayered s args) (p : Bool) :
    Fits s tightest (.array element size args p) := by
  refine ⟨⟨?_, ha⟩, ?_⟩
  · simp only [nesting]
    split
    · split <;> simp [Tree.isLayered, Tree.areLayered, Tree.assignmentLevel_le]
    · simp [Tree.isLayered, areLayered_argumentNestings ha]
  · simp only [nesting]
    split <;> exact Nat.le_refl _

theorem infixLevel_lt (op : BinaryOp) : infixLevel (precedence op) < prefixLevel := by
  have := precedence_le op
  simp only [infixLevel, prefixLevel]
  omega

theorem nesting_operate (op : BinaryOp) (left right : Expr) :
    nesting s .flagged (operate op left right) =
      match comparisonMethod op left right with
      | some (negated, method) =>
        let call := selfCall method [nesting s .flagged left, nesting s .flagged right]
        if negated then .unary .not call else call
      | none =>
        if op.isAssignment && left.isStored then assignedNesting s left (nesting s .flagged right)
        else .binary op (nesting s .flagged left) (nesting s .flagged right) := by
  simp only [operate, nesting, bracketed, Parens.around, hasParens]
  rfl

/-- An operator that is no assignment fits at its own level, also where it is written as a call. -/
theorem Fits.operate {op : BinaryOp} (hop : op.isAssignment = false)
    (hl : Fits s (infixLevel (precedence op)) left) (hr : Fits s (infixLevel (precedence op) + 1) right) :
    Fits s (infixLevel (precedence op)) (operate op left right) := by
  have hlt := infixLevel_lt op
  have hnode : (nesting s .flagged (Expr.operate op left right)).isLayered ∧
      infixLevel (precedence op) ≤ (nesting s .flagged (Expr.operate op left right)).level := by
    rw [nesting_operate]
    split
    · next negated method _ =>
        have hcall : (selfCall method [nesting s .flagged left, nesting s .flagged right]).isLayered :=
          isLayered_selfCall
            (by simp [Tree.areLayered, Tree.assignmentLevel_le, hl.layered.self, hr.layered.self])
        have hle : prefixLevel ≤
            (selfCall method [nesting s .flagged left, nesting s .flagged right]).level :=
          prefixLevel_le_tightest
        cases negated with
        | true => exact ⟨by simpa [Tree.isLayered, UnaryOp.isPost, hcall] using hle, Nat.le_of_lt hlt⟩
        | false => exact ⟨hcall, Nat.le_trans (Nat.le_of_lt hlt) hle⟩
    · have hlevel := hl.level
      have hlevel' := hr.level
      simp only [hop, Bool.false_and, Bool.false_eq_true, if_false]
      refine ⟨?_, by simp [Tree.level, hop]⟩
      simpa [Tree.isLayered, hop, hl.layered.self, hr.layered.self] using ⟨hlevel, hlevel'⟩
  exact ⟨⟨hnode.1, hl.layered, hr.layered⟩, hnode.2⟩

theorem Fits.apply (op : UnaryOp) (h : Fits s (if op.isPost then tightest else prefixLevel) e) :
    Fits s (if op.isPost then postfixLevel else prefixLevel) (apply op e) := by
  have hnest : nesting s .flagged (Expr.apply op e) = .unary op (nesting s .flagged e) := by
    simp [Expr.apply, nesting, bracketed, Parens.around, hasParens]
  refine ⟨⟨?_, h.layered⟩, ?_⟩
  · change (nesting s .flagged (Expr.apply op e)).isLayered
    rw [hnest, Tree.isLayered, Bool.and_eq_true]
    exact ⟨decide_eq_true h.level, h.layered.self⟩
  · rw [hnest]
    exact Nat.le_refl _

/-- What can be assigned to, by an assignment or by an inherited method. -/
structure Place (s : Settings) (e : Expr) : Prop where
  layered : Layered s e
  place : e.isStored ∨ (nesting s .flagged e).isTarget

theorem Place.fits (h : Place s e) : Fits s tightest e := by
  refine ⟨h.layered, ?_⟩
  rcases h.place with hs | ht
  · cases e with
    | property | extra => exact Nat.le_refl _
    | _ => cases hs
  · exact Tree.tightest_le_of_isTarget ht

theorem Place.isLayered_assigned (h : Place s target) (hs : target.isStored) {t : Tree}
    (ht : t.isLayered) : (assignedNesting s target t).isLayered := by
  cases target with
  | property object key p =>
      refine isLayered_selfCall ?_
      have hobject : (nesting s .flagged object).isLayered := Layered.self h.layered.2.1
      have hkey : (nesting s .flagged key).isLayered := Layered.self h.layered.2.2
      simp [Tree.areLayered, Tree.assignmentLevel_le, hobject, hkey, ht]
  | extra name p =>
      refine isLayered_selfCall ?_
      simp [Tree.areLayered, Tree.assignmentLevel_le, Tree.isLayered, assignmentLevel_le_tightest, ht]
  | _ => cases hs

theorem Place.operate (h : Place s left) (op : BinaryOp) (hop : op.isAssignment)
    (hr : Layered s right) :
    Fits s assignmentLevel (operate op left right) := by
  refine Layered.fits ⟨?_, h.layered, hr⟩
  have hm : comparisonMethod op left right = none := by
    cases op with
    | assign | update => rfl
    | _ => cases hop
  change (nesting s .flagged (Expr.operate op left right)).isLayered
  rw [nesting_operate, hm]
  dsimp only
  split
  · next hstored => exact h.isLayered_assigned (by simpa [hop] using hstored) hr.self
  · next hstored =>
      have ht : (nesting s .flagged left).isTarget :=
        h.place.resolve_left (by simpa [hop] using hstored)
      simp [Tree.isLayered, hop, ht, Tree.assignmentLevel_le, h.layered.self, hr.self]

theorem nesting_withParens_operate (op : BinaryOp) (left right : Expr) :
    nesting s .flagged (operate op left right).withParens =
      .parens (nesting s .flagged (operate op left right)) := by
  rw [nesting_withParens, nesting_operate, operate, nesting]
  rfl

theorem Layered.withParens_operate {op : BinaryOp} (h : Layered s (operate op left right)) :
    Fits s tightest (operate op left right).withParens :=
  ⟨h.setParens true, by rw [nesting_withParens_operate]; exact Nat.le_refl _⟩

theorem Fits.ensureNumber (h : Fits s k e) (hk : k ≤ tightest) : Fits s k e.ensureNumber :=
  h.ite ((fits_helper _ _ (allLayered_one h.layered)).mono hk)

theorem Fits.ensureText (h : Fits s k e) (hk : k ≤ tightest) : Fits s k e.ensureText :=
  h.ite ((fits_helper _ _ (allLayered_one h.layered)).mono hk)

theorem Fits.ensureBoolean (h : Fits s k e) (hk : k ≤ tightest) : Fits s k e.ensureBoolean :=
  h.ite ((fits_helper _ _ (allLayered_one h.layered)).mono hk)

theorem Layered.ensureType (h : Layered s e) (slot : Ty) : Layered s (e.ensureType slot) := by
  have hk := assignmentLevel_le_tightest
  unfold Expr.ensureType
  split_ifs
  · exact h
  · exact (h.fits.ensureNumber hk).layered
  · exact (h.fits.ensureText hk).layered
  · exact (h.fits.ensureBoolean hk).layered
  · exact h

theorem Place.assignment {op : BinaryOp} (h : Place s target) (hop : op.isAssignment = false)
    (hl : Fits s (infixLevel (precedence op)) left) (hr : Fits s (infixLevel (precedence op) + 1) right) :
    Fits s tightest (Expr.assignment op target left right) :=
  (h.operate .assign rfl (hl.operate hop hr).layered.withParens_operate.layered).layered.withParens_operate

theorem Place.stepBefore (h : Place s e) (op : Arith) : Fits s tightest (Expr.stepBefore op e) := by
  have hlt := infixLevel_lt (.arith op)
  have htight : infixLevel (precedence (.arith op)) ≤ tightest :=
    Nat.le_trans (Nat.le_of_lt hlt) prefixLevel_le_tightest
  exact h.assignment rfl ((h.fits.mono htight).ensureNumber htight) ((fits_prim (.int 1) _).mono hlt)

theorem Place.stepAfter (h : Place s e) (op : Arith) : Fits s tightest (Expr.stepAfter op e) :=
  fits_self _ _ (allLayered_two (h.fits.ensureNumber (Nat.le_refl _)).layered (h.stepBefore op).layered)

theorem Place.lowerAssign (h : Place s left) (hr : Layered s right) :
    Fits s assignmentLevel (lowerBinary .assign left right) :=
  h.operate .assign rfl (hr.ensureType _)

/-- A compound assignment that is spelled out has its right side as an operand. -/
theorem Place.lowerUpdate {op : Arith} (h : Place s left)
    (hr : Fits s (infixLevel (precedence (.arith op)) + 1) right) :
    Fits s assignmentLevel (lowerBinary (.update op) left right) := by
  have hlt := infixLevel_lt (.arith op)
  have hr' : infixLevel (precedence (.arith op)) + 1 ≤ tightest :=
    Nat.le_trans hlt prefixLevel_le_tightest
  have hl : Fits s (infixLevel (precedence (.arith op))) left := h.fits.mono (Nat.le_of_lt hr')
  have hnumbers : Fits s tightest
      (Expr.assignment (.arith op) left left.ensureNumber right.ensureNumber) :=
    h.assignment rfl (hl.ensureNumber (Nat.le_of_lt hr')) (hr.ensureNumber hr')
  have hspelled := hnumbers.mono assignmentLevel_le_tightest
  have hnative := Place.operate h (.update op) rfl (hr.layered.ensureType left.resultType)
  cases op with
  | add =>
      have htexts : Fits s tightest (Expr.assignment (.arith .add) left left.ensureText right.ensureText) :=
        h.assignment rfl (hl.ensureText (Nat.le_of_lt hr')) (hr.ensureText hr')
      exact (htexts.mono assignmentLevel_le_tightest).ite hspelled
  | _ => exact hspelled.ite hnative

theorem Fits.lowerBinary {op : BinaryOp} (hop : op.isAssignment = false)
    (hl : Fits s (infixLevel (precedence op)) left)
    (hr : Fits s (infixLevel (precedence op) + 1) right) :
    Fits s (infixLevel (precedence op)) (Expr.lowerBinary op left right) := by
  have hlt := infixLevel_lt op
  have hk' : infixLevel (precedence op) + 1 ≤ tightest := Nat.le_trans hlt prefixLevel_le_tightest
  have hk : infixLevel (precedence op) ≤ tightest := Nat.le_of_lt hk'
  have hboth := allLayered_two hl.layered hr.layered
  have hself (type : Ty) (method : String) :
      Fits s (infixLevel (precedence op)) (invokeSelf type method [left, right]) :=
    (fits_self type method hboth).mono hk
  have hnot (method : String) :
      Fits s (infixLevel (precedence op)) (Expr.apply .not (invokeSelf .boolean method [left, right])) :=
    (Fits.apply .not ((fits_self _ _ hboth).mono prefixLevel_le_tightest)).mono
      (Nat.le_of_lt hlt)
  have hnumbers : Fits s (infixLevel (precedence op))
      (Expr.operate op left.ensureNumber right.ensureNumber) :=
    (hl.ensureNumber hk).operate hop (hr.ensureNumber hk')
  have hnative := hl.operate hop hr
  cases op with
  | assign | update => cases hop
  | and | or => exact hnative.ite (hself _ _)
  | arith op =>
      cases op with
      | add => exact ((hl.ensureText hk).operate hop (hr.ensureText hk')).ite hnumbers
      | _ => exact hnumbers
  | compare op =>
      cases op with
      | identical => exact hnative.ite (hself _ _)
      | notIdentical => exact hnative.ite (hnot _)
      | equal => exact hself _ _
      | notEqual => exact hnot _
      | _ => exact hnumbers

theorem Fits.lowerUnary {op : UnaryOp} (hop : op.isStep = false) (h : Fits s prefixLevel e) :
    Fits s prefixLevel (Expr.lowerUnary op e) := by
  cases op with
  | not => exact Fits.apply .not (h.ensureBoolean prefixLevel_le_tightest)
  | bitNot => exact Fits.apply .bitNot (h.ensureNumber prefixLevel_le_tightest)
  | negate => exact Fits.apply .negate (h.ensureNumber prefixLevel_le_tightest)
  | plus => exact Fits.apply .plus (h.ensureNumber prefixLevel_le_tightest)
  | _ => cases hop

theorem Place.lowerUnary {op : UnaryOp} (hop : op.isStep) (h : Place s e) :
    Fits s (if op.isPost then postfixLevel else prefixLevel) (Expr.lowerUnary op e) := by
  have hpre : Fits s prefixLevel e := h.fits.mono prefixLevel_le_tightest
  have hbefore (op : Arith) := (h.stepBefore op).mono prefixLevel_le_tightest
  have hafter (op : Arith) := (h.stepAfter op).mono (by decide : postfixLevel ≤ tightest)
  cases op with
  | preIncrement => exact (Fits.apply .preIncrement hpre).ite (hbefore .add)
  | preDecrement => exact (Fits.apply .preDecrement hpre).ite (hbefore .subtract)
  | postIncrement => exact (Fits.apply .postIncrement h.fits).ite (hafter .add)
  | postDecrement => exact (Fits.apply .postDecrement h.fits).ite (hafter .subtract)
  | _ => cases hop

theorem isBoolean_ensureBoolean (e : Expr) : e.ensureBoolean.resultType.isBoolean := by
  unfold Expr.ensureBoolean
  split
  · assumption
  · rfl

theorem Fits.either (hb : test.resultType.isBoolean) (ht : Fits s (conditionalLevel + 1) test)
    (hy : Layered s yes) (hn : Fits s conditionalLevel no) :
    Fits s conditionalLevel (Expr.either test yes no) := by
  have hnest : nesting s .flagged (Expr.either test yes no) =
      .cond (nesting s .flagged test) (nesting s .flagged yes) (nesting s .flagged no) := by
    simp [Expr.either, nesting, bracketed, Parens.around, hasParens, hb]
  refine ⟨⟨?_, ht.layered, hy, hn.layered⟩, ?_⟩
  · have htest := ht.level
    have hno := hn.level
    change (nesting s .flagged (Expr.either test yes no)).isLayered
    rw [hnest]
    simpa [Tree.isLayered, Tree.assignmentLevel_le, ht.layered.self, hy.self, hn.layered.self] using
      ⟨htest, hno⟩
  · rw [hnest]
    exact Nat.le_refl _

theorem Fits.lowerTernary (ht : Fits s (conditionalLevel + 1) test) (hy : Layered s yes)
    (hn : Fits s conditionalLevel no) : Fits s conditionalLevel (Expr.lowerTernary test yes no) :=
  .either (isBoolean_ensureBoolean test) (ht.ensureBoolean (by decide)) hy hn

end TwinView.Java
