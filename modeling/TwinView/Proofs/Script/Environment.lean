import Mathlib.Tactic.SplitIfs
import TwinView.Proofs.Java.Scripts

/-!
What a script takes from the environment. Every name of the environment that stands in the code is
reported: as one that is read, or, if nothing but plain assignments set it, by the mark that the
environment is written to. And nothing is reported that the script does not name.
-/

namespace TwinView.Code

/-- A name of the environment in code: it is set by a plain assignment, or used in any other way. -/
inductive Lookup
  | set (name : String)
  | use (name : String)
deriving DecidableEq, Repr

namespace Expr

/-- The left side of a binary operator, of which `inner` are the lookups. A plain assignment sets the
name on its left. -/
def leftLookups (op : BinaryOp) (left : Expr) (inner : List Lookup) : List Lookup :=
  match op, left with
  | .assign, .extra name _ => [.set name]
  | _, _ => inner

mutual

/-- The names of the environment in an expression, one entry for each node. -/
def lookups : Expr → List Lookup
  | .extra name _ => [.use name]
  | .binary op left right _ => leftLookups op left left.lookups ++ right.lookups
  | .unary _ operand _ => operand.lookups
  | .property target key _ => target.lookups ++ key.lookups
  | .field target _ _ _ => target.lookups
  | .ternary test yes no _ => test.lookups ++ yes.lookups ++ no.lookups
  | .invoke _ target _ args _ => target.lookups ++ allLookups args
  | .create _ args _ => allLookups args
  | .array _ _ items _ => allLookups items
  | .cast _ operand _ => operand.lookups
  | .prim _ _ | .var _ _ _ | .this _ | .typeRef _ _ => []

def allLookups : List Expr → List Lookup
  | [] => []
  | e :: rest => e.lookups ++ allLookups rest

end

end Expr

def bodyLookups (body : List Stmt) : List Lookup :=
  (Stmt.allOf body).flatMap fun st => Expr.allLookups (Java.exprs st)

/-- Whether a lookup is told of by the names that are read and by the mark for writing. -/
def Reported (reads : List String) (writes : Bool) : Lookup → Prop
  | .set name => name ∈ reads ∨ writes
  | .use name => name ∈ reads

namespace Expr

variable {reads : List String} {writes : Bool} {e target key left right test yes no : Expr}
  {args : List Expr}

/-- All lookups of the expression are reported. -/
def Covered (reads : List String) (writes : Bool) (e : Expr) : Prop :=
  ∀ l ∈ e.lookups, Reported reads writes l

/-- All lookups are reported, if the expression is the left side of a plain assignment. -/
def SetCovered (reads : List String) (writes : Bool) (e : Expr) : Prop :=
  ∀ l ∈ leftLookups .assign e e.lookups, Reported reads writes l

def AllCovered (reads : List String) (writes : Bool) (es : List Expr) : Prop :=
  ∀ l ∈ allLookups es, Reported reads writes l

theorem Covered.leftSide (h : e.Covered reads writes) (op : BinaryOp) :
    ∀ l ∈ leftLookups op e e.lookups, Reported reads writes l := by
  unfold leftLookups
  split
  · next name _ =>
      intro l hl
      obtain rfl := List.mem_singleton.1 hl
      exact Or.inl (h (.use name) List.mem_cons_self)
  · exact h

theorem Covered.toSet (h : e.Covered reads writes) : e.SetCovered reads writes := h.leftSide .assign

theorem Covered.setParens (h : e.Covered reads writes) (p : Bool) :
    (e.setParens p).Covered reads writes := by
  cases e <;> exact h

theorem covered_const (value : Primitive) : (const value).Covered reads writes := by
  simp [Covered, const, lookups]

theorem covered_variableRef (type : Ty) (name : String) :
    (variableRef type name).Covered reads writes := by
  simp [Covered, variableRef, lookups]

theorem allCovered_nil : AllCovered reads writes [] := by
  simp [AllCovered, allLookups]

theorem AllCovered.cons (h : e.Covered reads writes) (ha : AllCovered reads writes args) :
    AllCovered reads writes (e :: args) := List.forall_mem_append.2 ⟨h, ha⟩

theorem allCovered_one (h : e.Covered reads writes) : AllCovered reads writes [e] :=
  .cons h allCovered_nil

theorem allCovered_two (hl : left.Covered reads writes) (hr : right.Covered reads writes) :
    AllCovered reads writes [left, right] := .cons hl (allCovered_one hr)

theorem covered_propertyOf (ht : target.Covered reads writes) (hk : key.Covered reads writes) :
    (propertyOf target key).Covered reads writes := List.forall_mem_append.2 ⟨ht, hk⟩

theorem covered_array (size : Nat) (h : AllCovered reads writes args) :
    (Expr.array .object size args false).Covered reads writes := h

theorem covered_invokeOn (result : Ty) (method : String) (ht : target.Covered reads writes)
    (h : AllCovered reads writes args) : (invokeOn result target method args).Covered reads writes :=
  List.forall_mem_append.2 ⟨ht, h⟩

theorem covered_self (result : Ty) (method : String) (h : AllCovered reads writes args) :
    (invokeSelf result method args).Covered reads writes := h

theorem covered_helper (result : Ty) (method : String) (h : AllCovered reads writes args) :
    (invokeHelper result method args).Covered reads writes := h

theorem covered_operate (op : BinaryOp) (hl : left.Covered reads writes)
    (hr : right.Covered reads writes) : (operate op left right).Covered reads writes :=
  List.forall_mem_append.2 ⟨hl.leftSide op, hr⟩

theorem covered_apply (op : UnaryOp) (h : e.Covered reads writes) :
    (apply op e).Covered reads writes := h

theorem covered_either (ht : test.Covered reads writes) (hy : yes.Covered reads writes)
    (hn : no.Covered reads writes) : (either test yes no).Covered reads writes :=
  List.forall_mem_append.2 ⟨List.forall_mem_append.2 ⟨ht, hy⟩, hn⟩

/-! Coercions and lowering put nothing of the environment in. -/

theorem Covered.ensureBoolean (h : e.Covered reads writes) : e.ensureBoolean.Covered reads writes := by
  unfold Expr.ensureBoolean
  split_ifs
  · exact h
  · exact covered_helper _ _ (allCovered_one h)

theorem Covered.ensureNumber (h : e.Covered reads writes) : e.ensureNumber.Covered reads writes := by
  unfold Expr.ensureNumber
  split_ifs
  · exact h
  · exact covered_helper _ _ (allCovered_one h)

theorem Covered.ensureText (h : e.Covered reads writes) : e.ensureText.Covered reads writes := by
  unfold Expr.ensureText
  split_ifs
  · exact h
  · exact covered_helper _ _ (allCovered_one h)

theorem Covered.ensureType (h : e.Covered reads writes) (slot : Ty) :
    (e.ensureType slot).Covered reads writes := by
  unfold Expr.ensureType
  split_ifs
  · exact h
  · exact h.ensureNumber
  · exact h.ensureText
  · exact h.ensureBoolean
  · exact h

theorem Covered.assignment (op : BinaryOp) (ht : target.Covered reads writes)
    (hl : left.Covered reads writes) (hr : right.Covered reads writes) :
    (Expr.assignment op target left right).Covered reads writes :=
  Covered.setParens (covered_operate .assign ht (Covered.setParens (covered_operate op hl hr) _)) _

theorem Covered.stepBefore (h : e.Covered reads writes) (op : Arith) :
    (Expr.stepBefore op e).Covered reads writes :=
  .assignment _ h h.ensureNumber (covered_const _)

theorem Covered.stepAfter (h : e.Covered reads writes) (op : Arith) :
    (Expr.stepAfter op e).Covered reads writes :=
  covered_self _ _ (allCovered_two h.ensureNumber (h.stepBefore op))

/-- What a plain assignment sets needs no more than the mark for writing. -/
theorem SetCovered.lowerAssign (hl : left.SetCovered reads writes) (hr : right.Covered reads writes) :
    (lowerBinary .assign left right).Covered reads writes :=
  List.forall_mem_append.2 ⟨hl, hr.ensureType _⟩

theorem Covered.lowerBinary (op : BinaryOp) (hl : left.Covered reads writes)
    (hr : right.Covered reads writes) : (Expr.lowerBinary op left right).Covered reads writes := by
  have hpair : AllCovered reads writes [left, right] := allCovered_two hl hr
  have hspelled (base : Arith) : (Expr.assignment (.arith base) left left.ensureNumber
      right.ensureNumber).Covered reads writes :=
    .assignment _ hl hl.ensureNumber hr.ensureNumber
  unfold Expr.lowerBinary
  split
  · split_ifs
    · exact covered_operate _ hl hr
    · exact covered_self _ _ hpair
  · split_ifs
    · exact covered_operate _ hl hr
    · exact covered_apply _ (covered_self _ _ hpair)
  · exact covered_self _ _ hpair
  · exact covered_apply _ (covered_self _ _ hpair)
  · split_ifs
    · exact covered_operate _ hl.ensureText hr.ensureText
    · exact covered_operate _ hl.ensureNumber hr.ensureNumber
  · split_ifs
    · exact .assignment _ hl hl.ensureText hr.ensureText
    · exact hspelled _
  · exact hl.toSet.lowerAssign hr
  · split_ifs
    · exact covered_operate _ hl hr
    · exact covered_self _ _ hpair
  · split_ifs
    · exact covered_operate _ hl hr
    · exact covered_self _ _ hpair
  · split_ifs
    · exact hspelled _
    · exact covered_operate _ hl (hr.ensureType _)
  · exact covered_operate _ hl.ensureNumber hr.ensureNumber
  · exact covered_operate _ hl.ensureNumber hr.ensureNumber

theorem Covered.lowerUnary (op : UnaryOp) (h : e.Covered reads writes) :
    (Expr.lowerUnary op e).Covered reads writes := by
  cases op with
  | not => exact covered_apply _ h.ensureBoolean
  | bitNot | negate | plus => exact covered_apply _ h.ensureNumber
  | preIncrement | preDecrement =>
      unfold Expr.lowerUnary
      dsimp only
      split_ifs
      · exact covered_apply _ h
      · exact h.stepBefore _
  | postIncrement | postDecrement =>
      unfold Expr.lowerUnary
      dsimp only
      split_ifs
      · exact covered_apply _ h
      · exact h.stepAfter _

theorem Covered.lowerTernary (ht : test.Covered reads writes) (hy : yes.Covered reads writes)
    (hn : no.Covered reads writes) : (Expr.lowerTernary test yes no).Covered reads writes :=
  covered_either ht.ensureBoolean hy hn

end Expr

/-! Statements. -/

variable {reads : List String} {writes : Bool}

def BodyCovered (reads : List String) (writes : Bool) (body : List Stmt) : Prop :=
  ∀ l ∈ bodyLookups body, Reported reads writes l

theorem bodyCovered_nil : BodyCovered reads writes [] := by
  simp [BodyCovered, bodyLookups, Stmt.allOf]

theorem BodyCovered.append {a b : List Stmt} (ha : BodyCovered reads writes a)
    (hb : BodyCovered reads writes b) : BodyCovered reads writes (a ++ b) := by
  intro l hl
  rw [bodyLookups, Stmt.allOf_append, List.flatMap_append] at hl
  exact (List.mem_append.1 hl).elim (ha l) (hb l)

theorem bodyCovered_expr {e : Expr} (h : e.Covered reads writes) :
    BodyCovered reads writes [.expr e] := by
  simpa [Expr.Covered, BodyCovered, bodyLookups, Stmt.allOf, Stmt.withInner, Java.exprs,
    Expr.allLookups] using h

theorem bodyCovered_ret {e : Expr} (h : e.Covered reads writes) :
    BodyCovered reads writes [.ret (some e)] := by
  simpa [Expr.Covered, BodyCovered, bodyLookups, Stmt.allOf, Stmt.withInner, Java.exprs,
    Expr.allLookups] using h

theorem bodyCovered_declStmt {ds : List VarDecl} (h : ∀ d ∈ ds, ∀ e ∈ d.init, e.Covered reads writes) :
    BodyCovered reads writes [Script.declStmt ds] := by
  have hall : Expr.AllCovered reads writes (ds.flatMap fun d => d.init.toList) := by
    induction ds with
    | nil => exact Expr.allCovered_nil
    | cons d rest ih =>
        obtain ⟨hd, hrest⟩ := List.forall_mem_cons.1 h
        rw [List.flatMap_cons]
        cases hinit : d.init with
        | none => exact ih hrest
        | some e => exact .cons (hd e hinit) (ih hrest)
  unfold Script.declStmt
  split
  · simpa [BodyCovered, Expr.AllCovered, bodyLookups, Stmt.allOf, Stmt.withInner, Java.exprs] using hall
  · simpa [BodyCovered, Expr.AllCovered, bodyLookups, Stmt.allOf, Stmt.withInner, Java.exprs] using hall

theorem bodyCovered_loop {init : Option Stmt} {test : Expr} {step : Option Expr} {body : List Stmt}
    (hi : BodyCovered reads writes init.toList) (ht : test.Covered reads writes)
    (hs : ∀ e ∈ step, e.Covered reads writes) (hb : BodyCovered reads writes body) :
    BodyCovered reads writes [.loop init test (step.map fun e => .expr e) body] := by
  have hstep : BodyCovered reads writes (step.map fun e => Stmt.expr e).toList := by
    cases step with
    | none => exact bodyCovered_nil
    | some e => exact bodyCovered_expr (hs e rfl)
  have heq : bodyLookups [.loop init test (step.map fun e => .expr e) body] =
      test.lookups ++ (bodyLookups init.toList ++
        (bodyLookups (step.map fun e => Stmt.expr e).toList ++ bodyLookups body)) := by
    cases init <;> cases step <;>
      simp [bodyLookups, Stmt.allOf, Stmt.allOfOption, Stmt.withInner, Java.exprs, Expr.allLookups]
  rw [BodyCovered, heq]
  simp only [List.forall_mem_append]
  exact ⟨ht, hi, hstep, hb⟩

end TwinView.Code

namespace TwinView.Script

variable {α β : Type} {reads : List String} {writes : Bool}

def builtinNames : List String := ["data", "index", "count", "key", "undefined", "NaN", "Infinity"]

/-- How a name stands in a script: as the left side of a plain assignment, as the type in `new` and
`instanceof`, or in any other place. -/
inductive NameUse
  | plain (name : String)
  | target (name : String)
  | type (name : String)
deriving DecidableEq, Repr

def NameUse.isBuiltin : NameUse → Bool
  | .plain name | .target name => builtinNames.contains name
  | .type name => name = "Array" || name = "Date"

/-- The left side of a binary operator, of which `inner` are the names. -/
def leftNames (op : Code.BinaryOp) (left : Expr) (inner : List NameUse) : List NameUse :=
  match op, left with
  | .assign, .name _ name => [.target name]
  | _, _ => inner

def typeNames (type : Expr) (inner : List NameUse) : List NameUse :=
  match type with
  | .name _ name => [.type name]
  | _ => inner

mutual

def Expr.names : Expr → List NameUse
  | .name _ name => [.plain name]
  | .number _ _ | .text _ _ | .bool _ _ | .null _ | .this _ => []
  | .parens _ inner => inner.names
  | .member _ target _ => target.names
  | .index _ target key => target.names ++ key.names
  | .call _ target args => target.names ++ Expr.allNames args
  | .new _ target args => typeNames target target.names ++ Expr.allNames args
  | .unary _ _ operand => operand.names
  | .typeOf _ operand => operand.names
  | .binary _ op left right => leftNames op left left.names ++ right.names
  | .isIn _ key target => key.names ++ target.names
  | .instanceOf _ target type => target.names ++ typeNames type type.names
  | .cond _ test yes no => test.names ++ (yes.names ++ no.names)
  | .comma _ items => Expr.allNames items
  | .object _ props => propsNames props
  | .array _ items => Expr.allNames items
  | .function _ ⟨_, _, body, _⟩ => Stmt.allNames body

def Expr.allNames : List Expr → List NameUse
  | [] => []
  | e :: rest => e.names ++ Expr.allNames rest

def propsNames : List (PropertyKey × Expr) → List NameUse
  | [] => []
  | (_, value) :: rest => value.names ++ propsNames rest

def optionNames : Option Expr → List NameUse
  | none => []
  | some e => e.names

def declsNames : List (DeclOf Expr) → List NameUse
  | [] => []
  | ⟨_, init, _⟩ :: rest => optionNames init ++ declsNames rest

/-- The names in a statement. What a declaration declares is not among them. -/
def Stmt.names : Stmt → List NameUse
  | .expr _ e => e.names
  | .var _ decls => declsNames decls
  | .ret _ value => optionNames value
  | .block _ body => Stmt.allNames body
  | .loop _ init test update body =>
      headUses init ++ (optionNames test ++ (optionNames update ++ body.names))
  | .function _ ⟨_, _, body, _⟩ => Stmt.allNames body
  | .empty _ => []

def headUses : Option Stmt → List NameUse
  | none => []
  | some st => st.names

def Stmt.allNames : List Stmt → List NameUse
  | [] => []
  | st :: rest => st.names ++ Stmt.allNames rest

end

/-- What a run of a compiler notes of the environment: nothing is forgotten, and what is new stands
among the names. -/
structure Notes (uses : List NameUse) (s s' : Scope) : Prop where
  reads : s.reads ⊆ s'.reads
  writes : s.writes → s'.writes
  newReads : ∀ name ∈ s'.reads, name ∈ s.reads ∨ .plain name ∈ uses ∧ name ∉ builtinNames
  newWrites : s'.writes → s.writes ∨ ∃ name, .target name ∈ uses ∧ name ∉ builtinNames

namespace Notes

variable {uses uses' : List NameUse} {s t s' : Scope}

theorem of_eq (uses : List NameUse) (hr : s'.reads = s.reads) (hw : s'.writes = s.writes) :
    Notes uses s s' where
  reads := hr ▸ List.Subset.refl _
  writes h := hw ▸ h
  newReads _ h := Or.inl (hr ▸ h)
  newWrites h := Or.inl (hw ▸ h)

theorem mono (h : Notes uses s s') (hu : uses ⊆ uses') : Notes uses' s s' where
  reads := h.reads
  writes := h.writes
  newReads name hn := (h.newReads name hn).imp_right fun hp => ⟨hu hp.1, hp.2⟩
  newWrites hw := (h.newWrites hw).imp_right fun ⟨name, hn, hp⟩ => ⟨name, hu hn, hp⟩

theorem trans (h : Notes uses s t) (h' : Notes uses t s') : Notes uses s s' where
  reads := List.Subset.trans h.reads h'.reads
  writes hs := h'.writes (h.writes hs)
  newReads name hn := (h'.newReads name hn).elim (h.newReads name) Or.inr
  newWrites hw := (h'.newWrites hw).elim h.newWrites Or.inr

end Notes

/-- Every accepted run of the compiler notes what is among the names, and its result has the property
if all that was noted is reported. -/
def Accounts (reads : List String) (writes : Bool) (uses : List NameUse) (x : Compile α)
    (Q : α → Prop) : Prop :=
  ∀ s a s', Yields x s a s' →
    Notes uses s s' ∧ (s'.reads ⊆ reads → (s'.writes → writes) → Q a)

namespace Accounts

variable {uses uses' : List NameUse} {Q : α → Prop} {R : β → Prop} {x : Compile α}
  {f : α → Compile β}

theorem pure {a : α} (h : Q a) : Accounts reads writes uses (pure a) Q := by
  intro s b s' hb
  obtain ⟨rfl, rfl⟩ := yields_pure.1 hb
  exact ⟨.of_eq uses rfl rfl, fun _ _ => h⟩

theorem refuse {fault : ScriptFault} {i : Nat} : Accounts reads writes uses (refuse fault i) Q :=
  fun _ _ _ h => absurd h yields_refuse

theorem mono (hx : Accounts reads writes uses x Q) (hu : uses ⊆ uses') :
    Accounts reads writes uses' x Q :=
  fun s a s' h => ⟨(hx s a s' h).1.mono hu, (hx s a s' h).2⟩

theorem bind (hx : Accounts reads writes uses x Q)
    (hf : ∀ a, Accounts reads writes uses' (f a) fun b => Q a → R b) :
    Accounts reads writes (uses ++ uses') (x >>= f) R := by
  intro s b s' h
  obtain ⟨a, t, ha, hb⟩ := yields_bind.1 h
  obtain ⟨hn, hq⟩ := hx s a t ha
  obtain ⟨hn', hr⟩ := hf a t b s' hb
  refine ⟨(hn.mono (List.subset_append_left _ _)).trans (hn'.mono (List.subset_append_right _ _)), ?_⟩
  intro hreads hwrites
  refine hr hreads hwrites (hq ?_ ?_)
  · exact List.Subset.trans hn'.reads hreads
  · exact fun ht => hwrites (hn'.writes ht)

theorem andThen (hx : Accounts reads writes uses x Q)
    (hf : ∀ a, Accounts reads writes [] (f a) fun b => Q a → R b) :
    Accounts reads writes uses (x >>= f) R := by
  have h := hx.bind hf
  rwa [List.append_nil] at h

end Accounts

open Code.Expr (Covered SetCovered AllCovered)

/-! Names. -/

theorem accounts_localName (uses : List NameUse) (name : String) :
    Accounts reads writes uses (localName name) (Covered reads writes) := by
  intro s e s' h
  unfold localName at h
  simp only [yields_bind, yields_get, yields_set, yields_pure] at h
  obtain ⟨_, _, ⟨rfl, rfl⟩, _, _, rfl, rfl, rfl⟩ := h
  exact ⟨.of_eq uses rfl rfl, fun _ _ => Code.Expr.covered_variableRef _ _⟩

theorem accounts_noteRead {name : String} (hb : name ∉ builtinNames) :
    Accounts reads writes [.plain name] (noteExtra name .read) (Covered reads writes) := by
  intro s e s' h
  simp only [noteExtra, yields_bind, yields_modify, yields_pure] at h
  obtain ⟨_, _, rfl, rfl, rfl⟩ := h
  have hmem : ∀ n, n ∈ (if s.reads.contains name then s.reads else s.reads ++ [name]) ↔
      n ∈ s.reads ∨ n = name := by
    intro n
    split
    · next hc =>
        rw [List.contains_iff_mem] at hc
        exact ⟨Or.inl, fun h => h.elim id fun h => h ▸ hc⟩
    · simp
  refine ⟨⟨fun n hn => (hmem n).2 (Or.inl hn), id, ?_, Or.inl⟩, ?_⟩
  · intro n hn
    refine ((hmem n).1 hn).imp_right ?_
    rintro rfl
    exact ⟨List.mem_cons_self, hb⟩
  · intro hreads _ l hl
    obtain rfl := List.mem_singleton.1 hl
    exact hreads ((hmem name).2 (Or.inr rfl))

theorem accounts_noteAssign {name : String} (hb : name ∉ builtinNames) :
    Accounts reads writes [.target name] (noteExtra name .assign) (SetCovered reads writes) := by
  intro s e s' h
  simp only [noteExtra, yields_bind, yields_modify, yields_pure] at h
  obtain ⟨_, _, rfl, rfl, rfl⟩ := h
  refine ⟨⟨List.Subset.refl _, fun _ => rfl, fun _ => Or.inl, ?_⟩, ?_⟩
  · exact fun _ => Or.inr ⟨name, List.mem_cons_self, hb⟩
  · intro _ hwrites l hl
    obtain rfl := List.mem_singleton.1 hl
    exact Or.inr (hwrites rfl)

theorem accounts_compileName {uses : List NameUse} {Q : Code.Expr → Prop} {usage : Usage}
    (name : String) (hq : ∀ e, e.Covered reads writes → Q e)
    (hnote : name ∉ builtinNames → Accounts reads writes uses (noteExtra name usage) Q) :
    Accounts reads writes uses (compileName usage name) Q := by
  have hvar (type : Code.Ty) (x : String) : Q (.variableRef type x) :=
    hq _ (Code.Expr.covered_variableRef type x)
  have hlocal : ∀ x ∈ CodeBlock.boundNames, Text.isGlobalName x = false := by decide
  unfold compileName
  split
  · next hg =>
      split
      iterate 3 exact .pure (hq _ (Code.Expr.covered_const _))
      next h1 h2 h3 =>
        have hbound : name ∉ CodeBlock.boundNames := by
          intro hm
          simp [hlocal name hm] at hg
        refine hnote ?_
        simp only [CodeBlock.boundNames, builtinNames, List.mem_cons, List.not_mem_nil,
          or_false] at hbound ⊢
        tauto
  · next hg =>
      split
      iterate 4 exact .pure (hvar _ _)
      next h1 h2 h3 h4 =>
        have hb : name ∉ builtinNames := by
          simp only [builtinNames, List.mem_cons, List.not_mem_nil, or_false]
          rintro (rfl | rfl | rfl | rfl | rfl | rfl | rfl) <;> contradiction
        intro s a s' h
        obtain ⟨_, _, hget, hrest⟩ := yields_bind.1 h
        obtain ⟨rfl, rfl⟩ := yields_get.1 hget
        split at hrest
        · obtain ⟨hn, hc⟩ := accounts_localName uses name _ a s' hrest
          exact ⟨hn, fun hr hw => hq a (hc hr hw)⟩
        · exact hnote hb _ a s' hrest

theorem accounts_read (name : String) :
    Accounts reads writes [.plain name] (compileName .read name) (Covered reads writes) :=
  accounts_compileName name (fun _ h => h) accounts_noteRead

theorem accounts_assign (name : String) :
    Accounts reads writes [.target name] (compileName .assign name) (SetCovered reads writes) :=
  accounts_compileName name (fun _ h => h.toSet) accounts_noteAssign

theorem notes_declare {name given : String} {type : Code.Ty} {p : Bool} {s s' : Scope}
    (h : Yields (compileName .declare name) s (.var given type p) s') (uses : List NameUse) :
    Notes uses s s' := by
  have hextra {s s' : Scope} : ¬ Yields (noteExtra name .declare) s (.var given type p) s' := by
    intro h
    cases h
  unfold compileName at h
  split_ifs at h
  · split at h
    iterate 3 cases (yields_pure.1 h).1
    exact absurd h hextra
  · split at h
    iterate 4
      obtain ⟨-, rfl⟩ := yields_pure.1 h
      exact .of_eq uses rfl rfl
    obtain ⟨_, _, hget, hlocal⟩ := yields_bind.1 h
    obtain ⟨rfl, rfl⟩ := yields_get.1 hget
    exact (@accounts_localName [] false uses name _ _ _ hlocal).1

/-! Expressions. -/

theorem Covered.calledMethod {callee object : Code.Expr} {method : String}
    (h : callee.Covered reads writes) (hm : calledMethod? callee = some (object, method)) :
    object.Covered reads writes := by
  obtain ⟨_, _, _, rfl, -⟩ := calledMethod?_eq_some hm
  exact (List.forall_mem_append.1 h).1

theorem allCovered_withEnd {args : List Code.Expr} (h : AllCovered reads writes args) :
    AllCovered reads writes (withEnd args) := by
  unfold withEnd
  split
  · next start length rest =>
      obtain ⟨hstart, hrest⟩ := List.forall_mem_append.1 h
      obtain ⟨hlength, hrest⟩ := List.forall_mem_append.1 hrest
      exact .cons hstart (.cons (Covered.lowerBinary _ hstart hlength) hrest)
  · exact h

theorem Covered.methodCall {object e : Code.Expr} {method : String} {args : List Code.Expr}
    (h : object.Covered reads writes) (ha : AllCovered reads writes args)
    (he : methodCall? object method args = some e) : e.Covered reads writes := by
  cases callCode_of_methodCall? he with
  | toString => exact h.ensureText
  | substring => exact Code.Expr.covered_invokeOn _ _ h.ensureText ha
  | substr => exact Code.Expr.covered_invokeOn _ _ h.ensureText (allCovered_withEnd ha)

theorem Covered.typeTest {target e : Code.Expr} {name : String} (h : target.Covered reads writes)
    (he : typeTest? target name = some e) : e.Covered reads writes := by
  obtain ⟨method, -, rfl⟩ := typeTest?_eq_some he
  refine Code.Expr.covered_either ?_ (Code.Expr.covered_const _) ?_
  · exact (Code.Expr.covered_operate _ h (Code.Expr.covered_const _)).setParens true
  · exact Code.Expr.covered_helper _ _ (Code.Expr.allCovered_one
      (Code.Expr.covered_invokeOn _ _ h Code.Expr.allCovered_nil))

mutual

/-- By induction on the expression. Only the name on the left of a plain assignment is excused from
being noted as read. -/
theorem accounts_compileExpr : ∀ e : Expr,
    Accounts reads writes e.names (compileExpr e) (Covered reads writes)
  | .name _ n => accounts_read n
  | .number _ _ | .text _ _ | .bool _ _ | .null _ => .pure (Code.Expr.covered_const _)
  | .this _ | .comma _ _ | .function _ _ => .refuse
  | .parens _ inner => (accounts_compileExpr inner).andThen fun _ => .pure fun h => h.setParens true
  | .member _ target _ => (accounts_compileExpr target).andThen fun _ => .pure fun h =>
      Code.Expr.covered_propertyOf h (Code.Expr.covered_const _)
  | .index _ target key => (accounts_compileExpr target).bind fun _ =>
      (accounts_compileExpr key).andThen fun _ => .pure fun hk ht =>
        Code.Expr.covered_propertyOf ht hk
  | .call _ target args => by
      unfold compileExpr
      refine (accounts_compileExpr target).bind fun callee => ?_
      split
      · exact .refuse
      · next object method hm =>
          refine (accounts_compileExprs args).andThen fun cs => ?_
          split
          · next c hc => exact .pure fun ha h => Covered.methodCall (Covered.calledMethod h hm) ha hc
          · exact .refuse
  | .new i target args => by
      obtain ⟨-, -, ⟨arg, x, -, -, ⟨size, h⟩ | h⟩ | h⟩ | h := compileExpr_new i target args
      · rw [h]
        exact .pure (Code.Expr.covered_array _ Code.Expr.allCovered_nil)
      · rw [h]
        exact .refuse
      · rw [h]
        refine ((accounts_compileExprs args).andThen fun _ => .pure fun hs =>
          Code.Expr.covered_array _ hs).mono ?_
        exact List.subset_append_right _ _
      · rw [h]
        exact .refuse
  | .unary _ op operand => (accounts_compileExpr operand).andThen fun _ => .pure fun h =>
      h.lowerUnary op
  | .typeOf _ operand => (accounts_compileExpr operand).andThen fun _ => .pure fun h =>
      Code.Expr.covered_helper _ _ (Code.Expr.allCovered_one h)
  | .binary _ op left right => by
      have hrest (l : Code.Expr) : Accounts reads writes right.names
          (compileExpr right >>= fun r => pure (Code.Expr.lowerBinary op l r)) fun e =>
            l.Covered reads writes → e.Covered reads writes :=
        (accounts_compileExpr right).andThen fun _ => .pure fun hr hl => hl.lowerBinary op hr
      unfold compileExpr
      dsimp only
      split
      · next i name =>
          by_cases hop : op = .assign
          · subst hop
            exact (accounts_assign name).bind fun l => (accounts_compileExpr right).andThen
              fun _ => .pure fun hr hl => hl.lowerAssign hr
          · rw [if_neg hop]
            have hnames : leftNames op (.name i name) [.plain name] = [.plain name] := by
              unfold leftNames
              split
              · exact absurd rfl hop
              · rfl
            unfold Expr.names
            rw [Expr.names, hnames]
            exact (accounts_read name).bind hrest
      · next hname =>
          have hnames : leftNames op left left.names = left.names := by
            unfold leftNames
            split
            · next i name => exact absurd rfl (hname i name)
            · rfl
          unfold Expr.names
          rw [hnames]
          exact (accounts_compileExpr left).bind hrest
  | .isIn _ key target => (accounts_compileExpr key).bind fun _ =>
      (accounts_compileExpr target).andThen fun _ => .pure fun ht hk =>
        Code.Expr.covered_helper _ _ (Code.Expr.allCovered_two ht hk)
  | .instanceOf _ target type => by
      unfold compileExpr
      refine ((accounts_compileExpr target).andThen fun _ => ?_).mono (List.subset_append_left _ _)
      split
      · split
        · next c hc => exact .pure fun h => Covered.typeTest h hc
        · exact .refuse
      · exact .refuse
  | .cond _ test yes no => (accounts_compileExpr test).bind fun _ =>
      (accounts_compileExpr yes).bind fun _ => (accounts_compileExpr no).andThen fun _ =>
        .pure fun hn hy ht => ht.lowerTernary hy hn
  | .object _ props => (accounts_compileProps props).andThen fun _ => .pure fun h =>
      Code.Expr.covered_helper _ _ h
  | .array _ items => (accounts_compileExprs items).andThen fun _ => .pure fun h =>
      Code.Expr.covered_array _ h

theorem accounts_compileExprs : ∀ es : List Expr,
    Accounts reads writes (Expr.allNames es) (compileExprs es) (AllCovered reads writes)
  | [] => .pure Code.Expr.allCovered_nil
  | e :: rest => (accounts_compileExpr e).bind fun _ => (accounts_compileExprs rest).andThen
      fun _ => .pure fun hs h => .cons h hs

theorem accounts_compileProps : ∀ props : List (PropertyKey × Expr),
    Accounts reads writes (propsNames props) (compileProps props) (AllCovered reads writes)
  | [] => .pure Code.Expr.allCovered_nil
  | (key, value) :: rest => (accounts_compileExpr value).bind fun _ =>
      (accounts_compileProps rest).andThen fun _ => .pure fun hs h => .cons (by
        cases key <;> exact Code.Expr.covered_const _) (.cons h hs)

end

theorem accounts_compileOption (e : Option Expr) : Accounts reads writes (optionNames e)
    (compileOption e) fun c => ∀ e ∈ c, e.Covered reads writes := by
  cases e with
  | none => exact .pure (by simp)
  | some e => exact (accounts_compileExpr e).andThen fun _ => .pure (by simp)

theorem accounts_compileTest (e : Option Expr) :
    Accounts reads writes (optionNames e) (compileTest e) (Covered reads writes) := by
  cases e with
  | none => exact .pure (Code.Expr.covered_const _)
  | some e => exact accounts_compileExpr e

/-! Statements. -/

theorem accounts_compileDecl (d : Decl) : Accounts reads writes (optionNames d.init)
    (compileDecl d) fun c => ∀ e ∈ c.init, e.Covered reads writes := by
  intro s c s' h
  obtain ⟨e, t, hname, h⟩ := yields_bind.1 h
  split at h
  · next given type p =>
      have hinit : Accounts reads writes (optionNames d.init) (do
          return ({ type, name := given, init := ← compileOption d.init } : Code.VarDecl))
          fun c => ∀ e ∈ c.init, e.Covered reads writes :=
        (accounts_compileOption d.init).andThen fun _ => .pure fun h => h
      obtain ⟨hn, hc⟩ := hinit t c s' h
      exact ⟨(notes_declare hname _).trans hn, hc⟩
  · exact absurd h yields_refuse

theorem accounts_compileDecls (ds : List Decl) : Accounts reads writes (declsNames ds)
    (compileDecls ds) fun cs => ∀ c ∈ cs, ∀ e ∈ c.init, e.Covered reads writes := by
  induction ds with
  | nil => exact .pure (by simp)
  | cons d rest ih =>
      refine (accounts_compileDecl d).bind fun c => ih.andThen fun cs => .pure ?_
      intro hs h
      exact List.forall_mem_cons.2 ⟨h, hs⟩

theorem accounts_compileHead (init : Option Stmt) : Accounts reads writes (headUses init)
    (compileHead init) fun c => Code.BodyCovered reads writes c.toList := by
  cases init with
  | none => exact .pure Code.bodyCovered_nil
  | some st =>
      cases st with
      | expr i e => exact (accounts_compileExpr e).andThen fun _ => .pure fun h =>
          Code.bodyCovered_expr h
      | var i ds => exact (accounts_compileDecls ds).andThen fun _ => .pure fun h =>
          Code.bodyCovered_declStmt h
      | ret | block | loop | function | empty => exact .pure Code.bodyCovered_nil

mutual

theorem accounts_compileStmt : ∀ st : Stmt,
    Accounts reads writes st.names (compileStmt st) (Code.BodyCovered reads writes)
  | .expr _ e => (accounts_compileExpr e).andThen fun _ => .pure fun h => Code.bodyCovered_expr h
  | .var _ ds => (accounts_compileDecls ds).andThen fun _ => .pure fun h =>
      Code.bodyCovered_declStmt h
  | .ret _ none => .pure (Code.bodyCovered_ret (Code.Expr.covered_const _))
  | .ret _ (some e) => (accounts_compileExpr e).andThen fun _ => .pure fun h =>
      Code.bodyCovered_ret h
  | .block _ body => accounts_compileStmts body
  | .loop _ init test update (.block _ stmts) =>
      (accounts_compileHead init).bind fun _ => (accounts_compileTest test).bind fun _ =>
        (accounts_compileOption update).bind fun _ => (accounts_compileStmts stmts).andThen
          fun _ => .pure fun hb hs ht hi => Code.bodyCovered_loop hi ht hs hb
  | .loop _ init test update (.expr ..) | .loop _ init test update (.var ..)
  | .loop _ init test update (.ret ..) | .loop _ init test update (.loop ..)
  | .loop _ init test update (.function ..) | .loop _ init test update (.empty _) =>
      (accounts_compileHead init).bind fun _ => (accounts_compileTest test).bind fun _ =>
        (accounts_compileOption update).bind fun _ => .refuse
  | .function _ _ => .refuse
  | .empty _ => .pure Code.bodyCovered_nil

theorem accounts_compileStmts : ∀ body : List Stmt, Accounts reads writes (Stmt.allNames body)
    (compileStmts body) (Code.BodyCovered reads writes)
  | [] => .pure Code.bodyCovered_nil
  | st :: rest => (accounts_compileStmt st).bind fun _ => (accounts_compileStmts rest).andThen
      fun _ => .pure fun hs h => h.append hs

end

theorem accounts_compileFunction (f : Function) : Accounts reads writes (Stmt.allNames f.body)
    (compileFunction f) fun m => Code.BodyCovered reads writes m.body := by
  have hname : Accounts reads writes [] (newName "code_") fun _ => True := by
    intro s name s' h
    simp only [newName, yields_bind, yields_get, yields_set, yields_pure] at h
    obtain ⟨_, _, ⟨rfl, rfl⟩, _, _, rfl, rfl, rfl⟩ := h
    exact ⟨.of_eq _ rfl rfl, fun _ _ => True.intro⟩
  refine hname.bind fun name => (accounts_compileStmts f.body).andThen fun body => .pure ?_
  intro h _
  dsimp only
  split
  · exact h
  · exact h.append (Code.bodyCovered_ret (Code.Expr.covered_const _))

theorem accounts_compileProgram (program : List Stmt) :
    Accounts reads writes (Stmt.allNames program) (compileProgram program)
      fun ms => ∀ m ∈ ms, Code.BodyCovered reads writes m.body := by
  induction program with
  | nil => exact .pure (by simp)
  | cons st rest ih =>
      cases st with
      | function i f =>
          refine (accounts_compileFunction f).bind fun m => ih.andThen fun ms => .pure ?_
          intro hs h
          exact List.forall_mem_cons.2 ⟨h, hs⟩
      | empty i => exact ih
      | expr | var | ret | block | loop => exact .refuse

def Compiled.lookups (t : Compiled) : List Code.Lookup :=
  t.methods.flatMap fun m => Code.bodyLookups m.body

/-- A script reports what it takes from the environment. Every lookup in its code is reported, so that
one without extras has none; and what it reports as read, the source names outside the left side of a
plain assignment. A source that names nothing but what it knows has no extras. -/
theorem environment_reported {names : Code.Names} {source : String} {t : Compiled}
    (h : (compile names source).1 = .ok t) :
    ∃ program, parse source = .ok program ∧
      (∀ l ∈ t.lookups, Code.Reported t.reads t.writes l) ∧
      (t.hasExtras = false → t.lookups = []) ∧
      (∀ name ∈ t.reads, .plain name ∈ Stmt.allNames program ∧ name ∉ builtinNames) ∧
      ((∀ use ∈ Stmt.allNames program, use.isBuiltin) → t.hasExtras = false) := by
  obtain ⟨program, s, hp, hy, -, hreads, hwrites⟩ := yields_of_compile h
  obtain ⟨hn, hc⟩ := @accounts_compileProgram t.reads t.writes program _ _ s hy
  have hall : ∀ l ∈ t.lookups, Code.Reported t.reads t.writes l := by
    intro l hl
    obtain ⟨m, hm, hl⟩ := List.mem_flatMap.1 hl
    exact hc (hreads ▸ List.Subset.refl _) (fun hw => hwrites ▸ hw) m hm l hl
  have hnew : ∀ name ∈ t.reads, .plain name ∈ Stmt.allNames program ∧ name ∉ builtinNames := by
    intro name hname
    rw [hreads] at hname
    exact (hn.newReads name hname).resolve_left List.not_mem_nil
  refine ⟨program, hp, hall, ?_, hnew, ?_⟩
  · intro he
    obtain ⟨hw, hr⟩ : t.writes = false ∧ t.reads = [] := by simpa [Compiled.hasExtras] using he
    rw [hw, hr] at hall
    refine List.eq_nil_iff_forall_not_mem.2 fun l hl => ?_
    have hreported := hall l hl
    cases l <;> simp [Code.Reported] at hreported
  · intro hb
    have hr : t.reads = [] := by
      refine List.eq_nil_iff_forall_not_mem.2 fun name hname => ?_
      obtain ⟨huse, hname⟩ := hnew name hname
      exact hname (by simpa [NameUse.isBuiltin] using hb _ huse)
    have hw : t.writes = false := by
      rw [Bool.eq_false_iff]
      intro hw
      rw [hwrites] at hw
      obtain hw | ⟨name, huse, hname⟩ := hn.newWrites hw
      · cases hw
      · exact hname (by simpa [NameUse.isBuiltin] using hb _ huse)
    simp [Compiled.hasExtras, hr, hw]

/-- It sets a name, steps one that it also reads, and reads another. -/
def orderSource : String :=
  "function(data){total = rate * data.price; orders++; return orders + new Array(count, undefined)}"

def knownSource : String := "function(data){return data instanceof Array ? NaN : index + count}"

theorem environment_reported_orders :
    (∃ t, (compile {} orderSource).1 = .ok t ∧ t.reads = ["rate", "orders"] ∧
      t.lookups.dedup = [.set "total", .use "rate", .set "orders", .use "orders"] ∧
      ∀ l ∈ t.lookups, Code.Reported t.reads t.writes l) ∧
    ∃ t, (compile {} knownSource).1 = .ok t ∧ t.hasExtras = false ∧ t.lookups = [] := by
  generalize ho : orderSource = orders
  generalize hk : knownSource = known
  have hok : ((compile {} orders).1.toOption.any fun t => t.reads = ["rate", "orders"] ∧
      t.lookups.dedup = [.set "total", .use "rate", .set "orders", .use "orders"]) := by
    subst ho
    decide +kernel
  have hnames : ((compile {} known).1.toOption.any fun _ => (parse known).toOption.any
      fun program => (Stmt.allNames program).all NameUse.isBuiltin) := by
    subst hk
    decide +kernel
  constructor
  · obtain ⟨t, h, hok⟩ := exists_ok_of_any hok
    obtain ⟨program, -, hall, -⟩ := environment_reported h
    obtain ⟨hreads, hlookups⟩ := of_decide_eq_true hok
    exact ⟨t, h, hreads, hlookups, hall⟩
  · obtain ⟨t, h, hnames⟩ := exists_ok_of_any hnames
    obtain ⟨program, hp, -, hnone, -, hfree⟩ := environment_reported h
    have hall := check_of_any hnames hp
    have hbuiltin := List.all_eq_true.1 hall
    exact ⟨t, h, hfree hbuiltin, hnone (hfree hbuiltin)⟩

end TwinView.Script
