import Mathlib.Tactic.SplitIfs
import TwinView.Proofs.Script.Scoping

/-!
The shape of the code of a script. It does not depend on the names that are taken: from any two states
of them a source is refused for the same reason, or gives code that differs only in the names it was
given and in whether a name of the source is a local or looked up in the environment.
-/

namespace TwinView.Code

variable {L L' : List (String × String)}

/-- A name of a source in code: the local that it was renamed to, or a name of the environment. -/
inductive StandsFor (locals : List (String × String)) (name : String) (p : Bool) : Expr → Prop
  | renamed {given : String} : locals.lookup name = some given →
      StandsFor locals name p (.var given .object p)
  | looked : StandsFor locals name p (.extra name p)

theorem StandsFor.resultType {name : String} {p : Bool} {e : Expr} (h : StandsFor L name p e) :
    e.resultType = .object := by
  cases h <;> rfl

theorem StandsFor.primitive? {name : String} {p : Bool} {e : Expr} (h : StandsFor L name p e) :
    e.primitive? = none := by
  cases h <;> rfl

/-- A local is spelled out for its type, a name of the environment for where it is kept. -/
theorem StandsFor.needsSpelling {name : String} {p : Bool} {e : Expr} (h : StandsFor L name p e) :
    e.needsSpelling := by
  cases h <;> rfl

theorem StandsFor.setParens {name : String} {p : Bool} {e : Expr} (h : StandsFor L name p e)
    (p' : Bool) : StandsFor L name p' (e.setParens p') := by
  cases h with
  | renamed hl => exact .renamed hl
  | looked => exact .looked

namespace Expr

/-- The same code, but for what stands for the names of the source. The locals of the left side are in
`L`, those of the right side in `L'`. -/
inductive Alike (L L' : List (String × String)) : Expr → Expr → Prop
  | name {name : String} {p : Bool} {e e' : Expr} :
      StandsFor L name p e → StandsFor L' name p e' → Alike L L' e e'
  | prim (value : Primitive) (p : Bool) : Alike L L' (.prim value p) (.prim value p)
  | var (name : String) (type : Ty) (p : Bool) : Alike L L' (.var name type p) (.var name type p)
  | this (p : Bool) : Alike L L' (.this p) (.this p)
  | typeRef (type : Ty) (p : Bool) : Alike L L' (.typeRef type p) (.typeRef type p)
  | property {target target' key key' : Expr} (p : Bool) : Alike L L' target target' →
      Alike L L' key key' → Alike L L' (.property target key p) (.property target' key' p)
  | field {target target' : Expr} (name : String) (type : Ty) (p : Bool) : Alike L L' target target' →
      Alike L L' (.field target name type p) (.field target' name type p)
  | binary {left left' right right' : Expr} (op : BinaryOp) (p : Bool) : Alike L L' left left' →
      Alike L L' right right' → Alike L L' (.binary op left right p) (.binary op left' right' p)
  | unary {operand operand' : Expr} (op : UnaryOp) (p : Bool) : Alike L L' operand operand' →
      Alike L L' (.unary op operand p) (.unary op operand' p)
  | ternary {test test' yes yes' no no' : Expr} (p : Bool) : Alike L L' test test' →
      Alike L L' yes yes' → Alike L L' no no' →
      Alike L L' (.ternary test yes no p) (.ternary test' yes' no' p)
  | invoke {target target' : Expr} {args args' : List Expr} (result : Ty) (method : String) (p : Bool) :
      Alike L L' target target' → List.Forall₂ (Alike L L') args args' →
      Alike L L' (.invoke result target method args p) (.invoke result target' method args' p)
  | create {args args' : List Expr} (typeName : String) (p : Bool) :
      List.Forall₂ (Alike L L') args args' →
      Alike L L' (.create typeName args p) (.create typeName args' p)
  | array {items items' : List Expr} (element : Ty) (size : Nat) (p : Bool) :
      List.Forall₂ (Alike L L') items items' →
      Alike L L' (.array element size items p) (.array element size items' p)
  | cast {operand operand' : Expr} (type : Ty) (p : Bool) : Alike L L' operand operand' →
      Alike L L' (.cast type operand p) (.cast type operand' p)

variable {e e' target target' key key' left left' right right' test test' yes yes' no no' : Expr}
  {args args' : List Expr}

/-! What the rules of lowering look at is the same on both sides. -/

theorem Alike.resultType {e e' : Expr} (h : Alike L L' e e') : e.resultType = e'.resultType := by
  cases h with
  | name h h' => exact h.resultType.trans h'.resultType.symm
  | binary op _ hl hr => simp only [Expr.resultType, hl.resultType, hr.resultType]
  | ternary _ _ hy hn => simp only [Expr.resultType, hy.resultType, hn.resultType]
  | _ => rfl

theorem Alike.primitive? (h : Alike L L' e e') : e.primitive? = e'.primitive? := by
  cases h with
  | name h h' => rw [h.primitive?, h'.primitive?]
  | _ => rfl

theorem Alike.isNullish (h : Alike L L' e e') : e.isNullish = e'.isNullish := by
  rw [Expr.isNullish, Expr.isNullish, h.primitive?]

theorem Alike.needsSpelling (h : Alike L L' e e') : e.needsSpelling = e'.needsSpelling := by
  have htype := h.resultType
  cases h with
  | name h h' => rw [h.needsSpelling, h'.needsSpelling]
  | _ => simp only [Expr.needsSpelling, htype, isStored]

theorem Alike.concatenates (h : Alike L L' e e') : e.concatenates = e'.concatenates := by
  rw [Expr.concatenates, Expr.concatenates, h.resultType]

theorem Alike.setParens (h : Alike L L' e e') (p : Bool) :
    Alike L L' (e.setParens p) (e'.setParens p) := by
  cases h with
  | name h h' => exact .name (h.setParens p) (h'.setParens p)
  | prim => exact .prim _ _
  | var => exact .var _ _ _
  | this => exact .this _
  | typeRef => exact .typeRef _ _
  | property _ ht hk => exact .property _ ht hk
  | field _ _ _ ht => exact .field _ _ _ ht
  | binary _ _ hl hr => exact .binary _ _ hl hr
  | unary _ _ h => exact .unary _ _ h
  | ternary _ ht hy hn => exact .ternary _ ht hy hn
  | invoke _ _ _ ht ha => exact .invoke _ _ _ ht ha
  | create _ _ ha => exact .create _ _ ha
  | array _ _ _ ha => exact .array _ _ _ ha
  | cast _ _ h => exact .cast _ _ h

/-! So the rules give the same code on both sides. -/

theorem alike_const (value : Primitive) : Alike L L' (const value) (const value) := .prim value false

theorem alike_one (h : Alike L L' e e') : List.Forall₂ (Alike L L') [e] [e'] := .cons h .nil

theorem alike_two (hl : Alike L L' left left') (hr : Alike L L' right right') :
    List.Forall₂ (Alike L L') [left, right] [left', right'] := .cons hl (alike_one hr)

theorem alike_self (result : Ty) (method : String) (h : List.Forall₂ (Alike L L') args args') :
    Alike L L' (invokeSelf result method args) (invokeSelf result method args') :=
  .invoke _ _ _ (.this _) h

theorem alike_helper (result : Ty) (method : String) (h : List.Forall₂ (Alike L L') args args') :
    Alike L L' (invokeHelper result method args) (invokeHelper result method args') :=
  .invoke _ _ _ (.typeRef _ _) h

theorem Alike.ensureBoolean (h : Alike L L' e e') : Alike L L' e.ensureBoolean e'.ensureBoolean := by
  unfold Expr.ensureBoolean
  rw [h.resultType]
  split_ifs
  · exact h
  · exact alike_helper _ _ (alike_one h)

theorem Alike.ensureNumber (h : Alike L L' e e') : Alike L L' e.ensureNumber e'.ensureNumber := by
  unfold Expr.ensureNumber
  rw [h.resultType]
  split_ifs
  · exact h
  · exact alike_helper _ _ (alike_one h)

theorem Alike.ensureText (h : Alike L L' e e') : Alike L L' e.ensureText e'.ensureText := by
  unfold Expr.ensureText
  rw [h.resultType]
  split_ifs
  · exact h
  · exact alike_helper _ _ (alike_one h)

theorem Alike.ensureType (h : Alike L L' e e') (slot : Ty) :
    Alike L L' (e.ensureType slot) (e'.ensureType slot) := by
  unfold Expr.ensureType
  rw [h.resultType]
  split_ifs
  · exact h
  · exact h.ensureNumber
  · exact h.ensureText
  · exact h.ensureBoolean
  · exact h

theorem Alike.assignment (op : BinaryOp) (ht : Alike L L' target target') (hl : Alike L L' left left')
    (hr : Alike L L' right right') :
    Alike L L' (Expr.assignment op target left right) (Expr.assignment op target' left' right') :=
  .setParens (.binary .assign false ht (.setParens (.binary op false hl hr) true)) true

theorem Alike.stepBefore (h : Alike L L' e e') (op : Arith) :
    Alike L L' (Expr.stepBefore op e) (Expr.stepBefore op e') :=
  .assignment _ h h.ensureNumber (alike_const _)

theorem Alike.stepAfter (h : Alike L L' e e') (op : Arith) :
    Alike L L' (Expr.stepAfter op e) (Expr.stepAfter op e') :=
  alike_self _ _ (alike_two h.ensureNumber (h.stepBefore op))

theorem Alike.lowerBinary (op : BinaryOp) (hl : Alike L L' left left')
    (hr : Alike L L' right right') :
    Alike L L' (Expr.lowerBinary op left right) (Expr.lowerBinary op left' right') := by
  have hpair : List.Forall₂ (Alike L L') [left, right] [left', right'] := alike_two hl hr
  have hspelled (base : Arith) : Alike L L'
      (Expr.assignment (.arith base) left left.ensureNumber right.ensureNumber)
      (Expr.assignment (.arith base) left' left'.ensureNumber right'.ensureNumber) :=
    .assignment _ hl hl.ensureNumber hr.ensureNumber
  unfold Expr.lowerBinary
  rw [hl.isNullish, hr.isNullish, hl.concatenates, hr.concatenates, hl.needsSpelling, hl.resultType,
    hr.resultType]
  split
  · split_ifs
    · exact .binary _ _ hl hr
    · exact alike_self _ _ hpair
  · split_ifs
    · exact .binary _ _ hl hr
    · exact .unary _ _ (alike_self _ _ hpair)
  · exact alike_self _ _ hpair
  · exact .unary _ _ (alike_self _ _ hpair)
  · split_ifs
    · exact .binary _ _ hl.ensureText hr.ensureText
    · exact .binary _ _ hl.ensureNumber hr.ensureNumber
  · split_ifs
    · exact .assignment _ hl hl.ensureText hr.ensureText
    · exact hspelled _
  · exact .binary _ _ hl (hr.ensureType _)
  · split_ifs
    · exact .binary _ _ hl hr
    · exact alike_self _ _ hpair
  · split_ifs
    · exact .binary _ _ hl hr
    · exact alike_self _ _ hpair
  · split_ifs
    · exact hspelled _
    · exact .binary _ _ hl (hr.ensureType _)
  · exact .binary _ _ hl.ensureNumber hr.ensureNumber
  · exact .binary _ _ hl.ensureNumber hr.ensureNumber

theorem Alike.lowerUnary (op : UnaryOp) (h : Alike L L' e e') :
    Alike L L' (Expr.lowerUnary op e) (Expr.lowerUnary op e') := by
  unfold Expr.lowerUnary
  rw [h.resultType]
  split
  · exact .unary _ _ h.ensureBoolean
  iterate 3 exact .unary _ _ h.ensureNumber
  iterate 2
    split_ifs
    · exact .unary _ _ h
    · exact h.stepBefore _
  iterate 2
    split_ifs
    · exact .unary _ _ h
    · exact h.stepAfter _

theorem Alike.lowerTernary (ht : Alike L L' test test') (hy : Alike L L' yes yes')
    (hn : Alike L L' no no') :
    Alike L L' (Expr.lowerTernary test yes no) (Expr.lowerTernary test' yes' no') :=
  .ternary _ ht.ensureBoolean hy hn

end Expr

/-- The same declaration. What it declares is the same name, or what stands for the same name of the
source. -/
structure VarDecl.Alike (L L' : List (String × String)) (d d' : VarDecl) : Prop where
  type : d.type = d'.type
  name : d.name = d'.name ∨ ∃ name, L.lookup name = some d.name ∧ L'.lookup name = some d'.name
  init : Option.Rel (Expr.Alike L L') d.init d'.init

/-- The same statement, but for the names in it. -/
inductive Stmt.Alike (L L' : List (String × String)) : Stmt → Stmt → Prop
  | expr {e e' : Expr} (origin : Origin) : Expr.Alike L L' e e' →
      Alike L L' (.expr e origin) (.expr e' origin)
  | var {d d' : VarDecl} : VarDecl.Alike L L' d d' → Alike L L' (.var d) (.var d')
  | vars {ds ds' : List VarDecl} : List.Forall₂ (VarDecl.Alike L L') ds ds' →
      Alike L L' (.vars ds) (.vars ds')
  | cond {test test' : Expr} {yes yes' no no' : List Stmt} : Expr.Alike L L' test test' →
      List.Forall₂ (Alike L L') yes yes' → List.Forall₂ (Alike L L') no no' →
      Alike L L' (.cond test yes no) (.cond test' yes' no')
  | loop {init init' step step' : Option Stmt} {test test' : Expr} {body body' : List Stmt} :
      Option.Rel (Alike L L') init init' → Expr.Alike L L' test test' →
      Option.Rel (Alike L L') step step' → List.Forall₂ (Alike L L') body body' →
      Alike L L' (.loop init test step body) (.loop init' test' step' body')
  | ret {value value' : Option Expr} : Option.Rel (Expr.Alike L L') value value' →
      Alike L L' (.ret value) (.ret value')
  | comment (value : String) : Alike L L' (.comment value) (.comment value)

/-- The same method of a script. Each side has its own number in the name. -/
structure Method.Alike (L L' : List (String × String)) (m m' : Method) : Prop where
  names : ∃ k k' : Nat, m.name = "code_" ++ k.repr ∧ m'.name = "code_" ++ k'.repr
  body : List.Forall₂ (Stmt.Alike L L') m.body m'.body
  rest : { m with name := m'.name, body := m'.body } = m'

end TwinView.Code

namespace TwinView.Script

open Code (Names)

variable {α β γ δ : Type}

/-- Two compilers that do the same from any scopes: both refuse for the same reason, or their results
are related as soon as all locals they have taken are known. Locals are only added. -/
def Parallel (R : List (String × String) → List (String × String) → α → β → Prop) (x : Compile α)
    (y : Compile β) : Prop :=
  ∀ s t, Extends s.names.locals (x.run.run s).2.names.locals ∧
    Extends t.names.locals (y.run.run t).2.names.locals ∧
    Agrees (fun a b => ∀ L L', Extends (x.run.run s).2.names.locals L →
      Extends (y.run.run t).2.names.locals L' → R L L' a b) (x.run.run s).1 (y.run.run t).1

theorem Extends.refl (locals : List (String × String)) : Extends locals locals := fun _ _ h => h

theorem Extends.trans {locals locals' locals'' : List (String × String)} (h : Extends locals locals')
    (h' : Extends locals' locals'') : Extends locals locals'' :=
  fun key given hk => h' key given (h key given hk)

namespace Parallel

variable {R : List (String × String) → List (String × String) → α → β → Prop}
  {Q : List (String × String) → List (String × String) → γ → δ → Prop}
  {x : Compile α} {y : Compile β} {f : α → Compile γ} {g : β → Compile δ}

theorem pure {a : α} {b : β} (h : ∀ L L', R L L' a b) : Parallel R (pure a) (pure b) :=
  fun _ _ => ⟨.refl _, .refl _, fun L L' _ _ => h L L'⟩

theorem refuse {fault : ScriptFault} {i : Nat} : Parallel R (refuse fault i) (refuse fault i) :=
  fun _ _ => ⟨.refl _, .refl _, rfl⟩

/-- The second compilers may rely on how the first results are related in any locals that know enough,
since no local is lost. -/
theorem bind (hx : Parallel R x y)
    (hf : ∀ a b L L', R L L' a b →
      Parallel (fun L L' c d => R L L' a b → Q L L' c d) (f a) (g b)) :
    Parallel Q (x >>= f) (y >>= g) := by
  intro s t
  have h := hx s t
  rw [run_bind, run_bind]
  generalize x.run.run s = r at h ⊢
  generalize y.run.run t = r' at h ⊢
  obtain ⟨r, s'⟩ := r
  obtain ⟨r', t'⟩ := r'
  obtain ⟨hs, ht, ha⟩ := h
  dsimp only at hs ht ha
  cases r with
  | error e =>
      cases r' with
      | error e' => exact ⟨hs, ht, ha⟩
      | ok b => exact ha.elim
  | ok a =>
      cases r' with
      | error e' => exact ha.elim
      | ok b =>
          have hab : ∀ L L', Extends s'.names.locals L → Extends t'.names.locals L' → R L L' a b := ha
          obtain ⟨hs', ht', hc⟩ := hf a b _ _ (hab _ _ (.refl _) (.refl _)) s' t'
          refine ⟨hs.trans hs', ht.trans ht', ?_⟩
          dsimp only
          generalize (f a).run.run s' = r at hs' hc ⊢
          generalize (g b).run.run t' = r' at ht' hc ⊢
          obtain ⟨r, s''⟩ := r
          obtain ⟨r', t''⟩ := r'
          dsimp only at hs' ht' hc ⊢
          cases r <;> cases r' <;> first
            | exact hc
            | exact fun L L' hL hL' => hc L L' hL hL' (hab L L' (hs'.trans hL) (ht'.trans hL'))

end Parallel

open Code.Expr (Alike alike_const alike_one alike_two alike_helper)

abbrev AllAlike (L L' : List (String × String)) : List Code.Expr → List Code.Expr → Prop :=
  List.Forall₂ (Alike L L')

/-! Names. -/

/-- The compiler takes a name of the source to what stands for it. -/
def Denotes (name : String) (x : Compile Code.Expr) : Prop :=
  ∀ s, Extends s.names.locals (x.run.run s).2.names.locals ∧
    ∃ e, (x.run.run s).1 = .ok e ∧
      ∀ L, Extends (x.run.run s).2.names.locals L → Code.StandsFor L name false e

theorem lookup_rename (n : Names) (name : String) :
    (n.rename name).2.locals.lookup name = some (n.rename name).1 := by
  unfold Names.rename
  split
  · assumption
  · exact List.lookup_cons_self

theorem denotes_localName (name : String) : Denotes name (localName name) := by
  intro s
  refine ⟨(gains_rename s.names name).kept, _, rfl, ?_⟩
  intro L hL
  exact .renamed (hL name _ (lookup_rename s.names name))

theorem denotes_noteExtra (name : String) (usage : Usage) : Denotes name (noteExtra name usage) := by
  intro s
  refine ⟨?_, _, rfl, fun L _ => .looked⟩
  show Extends _ (if usage = .assign then _ else _ : Scope).names.locals
  split <;> exact .refl _

theorem Denotes.parallel {name : String} {x y : Compile Code.Expr} (hx : Denotes name x)
    (hy : Denotes name y) : Parallel Alike x y := by
  intro s t
  obtain ⟨hs, e, he, hn⟩ := hx s
  obtain ⟨ht, e', he', hn'⟩ := hy t
  refine ⟨hs, ht, ?_⟩
  rw [he, he']
  exact fun L L' hL hL' => .name (hn L hL) (hn' L' hL')

/-- A name that is used: the two sides may know it in different ways. -/
theorem parallel_compileName (usage : Usage) (name : String) :
    Parallel Alike (compileName usage name) (compileName usage name) := by
  unfold compileName
  split
  · split
    iterate 3 exact .pure fun _ _ => alike_const _
    exact (denotes_noteExtra name usage).parallel (denotes_noteExtra name usage)
  · split
    iterate 4 exact .pure fun _ _ => .var _ _ _
    have hname : Denotes name (do
        if usage = .declare || (← get).names.isLocal name then localName name
        else noteExtra name usage) := by
      intro s
      rw [run_get_bind]
      split
      · exact denotes_localName name s
      · exact denotes_noteExtra name usage s
    exact hname.parallel hname

/-- What a declared name becomes on two sides: the same, or locals for the same name. -/
def DeclaredAlike (L L' : List (String × String)) (e e' : Code.Expr) : Prop :=
  e = e' ∨ ∃ name given given', L.lookup name = some given ∧ L'.lookup name = some given' ∧
    e = .variableRef .object given ∧ e' = .variableRef .object given'

/-- A name that is declared: it becomes a variable on both sides or on none. -/
theorem parallel_declare (name : String) :
    Parallel DeclaredAlike (compileName .declare name) (compileName .declare name) := by
  unfold compileName
  split
  · split
    iterate 3 exact .pure fun _ _ => Or.inl rfl
    exact fun s t => ⟨.refl _, .refl _, fun _ _ _ _ => Or.inl rfl⟩
  · split
    iterate 4 exact .pure fun _ _ => Or.inl rfl
    intro s t
    simp only [run_get_bind, decide_true, Bool.true_or, if_true]
    refine ⟨(gains_rename s.names name).kept, (gains_rename t.names name).kept, ?_⟩
    intro L L' hL hL'
    exact Or.inr ⟨name, _, _, hL name _ (lookup_rename s.names name),
      hL' name _ (lookup_rename t.names name), rfl, rfl⟩

/-! Expressions. -/

section

variable {L L' : List (String × String)} {callee callee' object object' target target' : Code.Expr}
  {args args' : List Code.Expr}

theorem Alike.isSome_calledMethod? (h : Alike L L' callee callee') :
    (calledMethod? callee).isSome = (calledMethod? callee').isSome := by
  cases h with
  | property p ht hk => simp only [calledMethod?, hk.primitive?, Option.isSome_map]
  | name h h' => cases h <;> cases h' <;> rfl
  | _ => rfl

theorem Alike.called {method method' : String} (h : Alike L L' callee callee')
    (hc : calledMethod? callee = some (object, method))
    (hc' : calledMethod? callee' = some (object', method')) :
    method = method' ∧ Alike L L' object object' := by
  cases h with
  | @property target target' key key' p ht hk =>
      simp only [calledMethod?, hk.primitive?] at hc hc'
      cases hkey : key'.primitive? with
      | none => simp [hkey] at hc
      | some k =>
          obtain ⟨rfl, rfl⟩ : target = object ∧ k.toText = method := by simpa [hkey] using hc
          obtain ⟨rfl, rfl⟩ : target' = object' ∧ k.toText = method' := by simpa [hkey] using hc'
          exact ⟨rfl, ht⟩
  | name h h' => cases h <;> cases hc
  | _ => cases hc

theorem isSome_methodCall? (object object' : Code.Expr) (method : String) (args args' : List Code.Expr) :
    (methodCall? object method args).isSome = (methodCall? object' method args').isSome := by
  unfold methodCall?
  split <;> rfl

theorem Alike.methodCall {method : String} {e e' : Code.Expr} (h : Alike L L' object object')
    (ha : AllAlike L L' args args') (he : methodCall? object method args = some e)
    (he' : methodCall? object' method args' = some e') : Alike L L' e e' := by
  have hsub : ∀ {args args'}, AllAlike L L' args args' → Alike L L'
      (.invokeOn .string object.ensureText "substring" args)
      (.invokeOn .string object'.ensureText "substring" args') :=
    fun ha => .invoke _ _ _ h.ensureText ha
  unfold methodCall? at he he'
  split at he
  · cases he
    cases he'
    exact h.ensureText
  · cases he
    cases he'
    exact hsub ha
  · cases he
    cases he'
    refine hsub ?_
    cases ha with
    | nil => exact .nil
    | cons hstart ha =>
        cases ha with
        | nil => exact alike_one hstart
        | cons hlength ha => exact .cons hstart (.cons (hstart.lowerBinary _ hlength) ha)
  · cases he

theorem isSome_typeTest? (target target' : Code.Expr) (name : String) :
    (typeTest? target name).isSome = (typeTest? target' name).isSome := by
  unfold typeTest?
  dsimp only
  split <;> rfl

theorem Alike.typeTest {name : String} {e e' : Code.Expr} (h : Alike L L' target target')
    (he : typeTest? target name = some e) (he' : typeTest? target' name = some e') :
    Alike L L' e e' := by
  have htest (method : String) : Alike L L'
      (.either (Code.Expr.operate (.compare .identical) target .null).withParens (.bool false)
        (.invokeHelper .boolean method [.invokeOn .classRef target "getClass" []]))
      (.either (Code.Expr.operate (.compare .identical) target' .null).withParens (.bool false)
        (.invokeHelper .boolean method [.invokeOn .classRef target' "getClass" []])) := by
    refine .ternary _ ?_ (alike_const _) ?_
    · exact .binary _ _ h (alike_const _)
    · exact alike_helper _ _ (alike_one (.invoke _ _ _ h .nil))
  unfold typeTest? at he he'
  dsimp only at he he'
  split at he
  · cases he
    cases he'
    exact htest _
  · cases he
    cases he'
    exact htest _
  · cases he

end

/-- Two results that may be missing, where a refusal tells only that. -/
theorem parallel_option {R : List (String × String) → List (String × String) → Code.Expr → Code.Expr → Prop}
    {fault : ScriptFault} {i : Nat} (r r' : Option Code.Expr) :
    r.isSome = r'.isSome → (∀ L L' e e', r = some e → r' = some e' → R L L' e e') →
    Parallel R
      (match r with
        | some e => pure e
        | none => refuse fault i)
      (match r' with
        | some e => pure e
        | none => refuse fault i) := by
  intro hsome h
  cases r with
  | none =>
      cases r' with
      | none => exact .refuse
      | some e' => cases hsome
  | some e =>
      cases r' with
      | none => cases hsome
      | some e' => exact .pure fun L L' => h L L' e e' rfl rfl

mutual

theorem parallel_compileExpr : ∀ e : Expr, Parallel Alike (compileExpr e) (compileExpr e)
  | .name _ _ => parallel_compileName _ _
  | .number _ _ | .text _ _ | .bool _ _ | .null _ => .pure fun _ _ => alike_const _
  | .this _ | .comma _ _ | .function _ _ => .refuse
  | .parens _ inner => (parallel_compileExpr inner).bind fun _ _ _ _ _ => .pure fun _ _ h =>
      h.setParens true
  | .member _ target _ => (parallel_compileExpr target).bind fun _ _ _ _ _ => .pure fun _ _ h =>
      .property _ h (alike_const _)
  | .index _ target key => (parallel_compileExpr target).bind fun _ _ _ _ _ =>
      (parallel_compileExpr key).bind fun _ _ _ _ _ => .pure fun _ _ hk ht => .property _ ht hk
  | .call _ target args => by
      unfold compileExpr
      refine (parallel_compileExpr target).bind fun callee callee' L L' h => ?_
      have hsome := Alike.isSome_calledMethod? h
      cases hc : calledMethod? callee with
      | none =>
          cases hc' : calledMethod? callee' with
          | none => exact .refuse
          | some c => simp [hc, hc'] at hsome
      | some c =>
          cases hc' : calledMethod? callee' with
          | none => simp [hc, hc'] at hsome
          | some c' =>
              obtain ⟨object, method⟩ := c
              obtain ⟨object', method'⟩ := c'
              obtain ⟨rfl, -⟩ := Alike.called h hc hc'
              refine (parallel_compileExprs args).bind fun as as' _ _ _ => ?_
              refine parallel_option _ _ (isSome_methodCall? object object' method as as') ?_
              intro L L' e e' he he' ha h
              exact Alike.methodCall (Alike.called h hc hc').2 ha he he'
  | .new i target args => by
      obtain ⟨-, -, ⟨arg, x, -, -, ⟨size, h⟩ | h⟩ | h⟩ | h := compileExpr_new i target args
      · rw [h]
        exact .pure fun _ _ => .array _ _ _ .nil
      · rw [h]
        exact .refuse
      · rw [h]
        exact (parallel_compileExprs args).bind fun _ _ _ _ _ => .pure fun _ _ hs => .array _ _ _ hs
      · rw [h]
        exact .refuse
  | .unary _ op operand => (parallel_compileExpr operand).bind fun _ _ _ _ _ => .pure fun _ _ h =>
      h.lowerUnary op
  | .typeOf _ operand => (parallel_compileExpr operand).bind fun _ _ _ _ _ => .pure fun _ _ h =>
      alike_helper _ _ (alike_one h)
  | .binary _ op left right => by
      have hrest (l l' : Code.Expr) (L L') (_ : Alike L L' l l') :
          Parallel (fun L L' e e' => Alike L L' l l' → Alike L L' e e')
            (compileExpr right >>= fun r => pure (Code.Expr.lowerBinary op l r))
            (compileExpr right >>= fun r => pure (Code.Expr.lowerBinary op l' r)) :=
        (parallel_compileExpr right).bind fun _ _ _ _ _ => .pure fun _ _ hr hl =>
          hl.lowerBinary op hr
      unfold compileExpr
      dsimp only
      split
      · exact (parallel_compileName _ _).bind hrest
      · exact (parallel_compileExpr _).bind hrest
  | .isIn _ key target => (parallel_compileExpr key).bind fun _ _ _ _ _ =>
      (parallel_compileExpr target).bind fun _ _ _ _ _ => .pure fun _ _ ht hk =>
        alike_helper _ _ (alike_two ht hk)
  | .instanceOf _ target type => by
      unfold compileExpr
      refine (parallel_compileExpr target).bind fun t t' _ _ _ => ?_
      split
      · next name =>
          refine parallel_option _ _ (isSome_typeTest? t t' name) ?_
          intro L L' e e' he he' h
          exact Alike.typeTest h he he'
      · exact .refuse
  | .cond _ test yes no => (parallel_compileExpr test).bind fun _ _ _ _ _ =>
      (parallel_compileExpr yes).bind fun _ _ _ _ _ =>
        (parallel_compileExpr no).bind fun _ _ _ _ _ => .pure fun _ _ hn hy ht =>
          ht.lowerTernary hy hn
  | .object _ props => (parallel_compileProps props).bind fun _ _ _ _ _ => .pure fun _ _ h =>
      alike_helper _ _ h
  | .array _ items => (parallel_compileExprs items).bind fun _ _ _ _ _ => .pure fun _ _ h =>
      .array _ _ _ h

theorem parallel_compileExprs :
    ∀ es : List Expr, Parallel AllAlike (compileExprs es) (compileExprs es)
  | [] => .pure fun _ _ => .nil
  | e :: rest => (parallel_compileExpr e).bind fun _ _ _ _ _ =>
      (parallel_compileExprs rest).bind fun _ _ _ _ _ => .pure fun _ _ hs h => .cons h hs

theorem parallel_compileProps : ∀ props : List (PropertyKey × Expr),
    Parallel AllAlike (compileProps props) (compileProps props)
  | [] => .pure fun _ _ => .nil
  | (key, value) :: rest => (parallel_compileExpr value).bind fun _ _ _ _ _ =>
      (parallel_compileProps rest).bind fun _ _ _ _ _ => .pure fun _ _ hs h => .cons (by
        cases key <;> exact alike_const _) (.cons h hs)

end

/-! Statements. -/

open Code (VarDecl)

theorem parallel_compileOption (e : Option Expr) : Parallel (fun L L' => Option.Rel (Alike L L'))
    (compileOption e) (compileOption e) := by
  cases e with
  | none => exact .pure fun _ _ => .none
  | some e => exact (parallel_compileExpr e).bind fun _ _ _ _ _ => .pure fun _ _ h => .some h

theorem parallel_compileTest (e : Option Expr) : Parallel Alike (compileTest e) (compileTest e) := by
  cases e with
  | none => exact .pure fun _ _ => alike_const _
  | some e => exact parallel_compileExpr e

theorem parallel_compileDecl (d : Decl) :
    Parallel VarDecl.Alike (compileDecl d) (compileDecl d) := by
  have hinit (type : Code.Ty) (name name' : String) (p p' : Bool) : Parallel
      (fun L L' c c' => DeclaredAlike L L' (.var name type p) (.var name' type p') →
        VarDecl.Alike L L' c c')
      (do return ({ type, name, init := ← compileOption d.init } : VarDecl))
      (do return ({ type, name := name', init := ← compileOption d.init } : VarDecl)) := by
    refine (parallel_compileOption d.init).bind fun i i' _ _ _ => .pure ?_
    rintro L L' hi (h | ⟨x, given, given', hx, hx', h, h'⟩)
    · cases h
      exact ⟨rfl, Or.inl rfl, hi⟩
    · cases h
      cases h'
      exact ⟨rfl, Or.inr ⟨x, hx, hx'⟩, hi⟩
  refine (parallel_declare d.name).bind ?_
  rintro e e' L L' (rfl | ⟨x, given, given', -, -, rfl, rfl⟩)
  · split
    · exact hinit _ _ _ _ _
    · exact .refuse
  · exact hinit .object given given' false false

theorem parallel_compileDecls (ds : List Decl) :
    Parallel (fun L L' => List.Forall₂ (VarDecl.Alike L L')) (compileDecls ds) (compileDecls ds) := by
  induction ds with
  | nil => exact .pure fun _ _ => .nil
  | cons d rest ih =>
      refine (parallel_compileDecl d).bind fun _ _ _ _ _ => ih.bind fun _ _ _ _ _ => .pure ?_
      exact fun _ _ hs h => .cons h hs

theorem alike_declStmt {L L' : List (String × String)} {ds ds' : List VarDecl}
    (h : List.Forall₂ (VarDecl.Alike L L') ds ds') :
    Code.Stmt.Alike L L' (declStmt ds) (declStmt ds') := by
  cases h with
  | nil => exact .vars .nil
  | cons hd hrest =>
      cases hrest with
      | nil => exact .var hd
      | cons hd' hrest => exact .vars (.cons hd (.cons hd' hrest))

theorem parallel_compileHead (init : Option Stmt) :
    Parallel (fun L L' => Option.Rel (Code.Stmt.Alike L L')) (compileHead init) (compileHead init) := by
  unfold compileHead
  split
  · exact (parallel_compileExpr _).bind fun _ _ _ _ _ => .pure fun _ _ h => .some (.expr _ h)
  · exact (parallel_compileDecls _).bind fun _ _ _ _ _ => .pure fun _ _ h => .some (alike_declStmt h)
  · exact .pure fun _ _ => .none

abbrev BodiesAlike (L L' : List (String × String)) : List Code.Stmt → List Code.Stmt → Prop :=
  List.Forall₂ (Code.Stmt.Alike L L')

theorem alike_step {L L' : List (String × String)} {step step' : Option Code.Expr}
    (h : Option.Rel (Alike L L') step step') :
    Option.Rel (Code.Stmt.Alike L L') (step.map fun e => .expr e) (step'.map fun e => .expr e) := by
  cases h with
  | none => exact .none
  | some h => exact .some (.expr _ h)

mutual

theorem parallel_compileStmt : ∀ st : Stmt, Parallel BodiesAlike (compileStmt st) (compileStmt st)
  | .expr _ e => (parallel_compileExpr e).bind fun _ _ _ _ _ => .pure fun _ _ h =>
      .cons (.expr _ h) .nil
  | .var _ decls => (parallel_compileDecls decls).bind fun _ _ _ _ _ => .pure fun _ _ h =>
      .cons (alike_declStmt h) .nil
  | .ret _ none => .pure fun _ _ => .cons (.ret (.some (alike_const _))) .nil
  | .ret _ (some e) => (parallel_compileExpr e).bind fun _ _ _ _ _ => .pure fun _ _ h =>
      .cons (.ret (.some h)) .nil
  | .block _ body => parallel_compileStmts body
  | .loop _ init test update body => by
      unfold compileStmt
      refine (parallel_compileHead init).bind fun _ _ _ _ _ => ?_
      refine (parallel_compileTest test).bind fun _ _ _ _ _ => ?_
      refine (parallel_compileOption update).bind fun _ _ _ _ _ => ?_
      split
      · next stmts =>
          refine (parallel_compileStmts stmts).bind fun _ _ _ _ _ => .pure ?_
          intro L L' hb hs ht hi
          exact .cons (.loop hi ht (alike_step hs) hb) .nil
      · exact .refuse
  | .function _ _ => .refuse
  | .empty _ => .pure fun _ _ => .nil

theorem parallel_compileStmts :
    ∀ body : List Stmt, Parallel BodiesAlike (compileStmts body) (compileStmts body)
  | [] => .pure fun _ _ => .nil
  | st :: rest => (parallel_compileStmt st).bind fun _ _ _ _ _ =>
      (parallel_compileStmts rest).bind fun _ _ _ _ _ => .pure fun _ _ hs h =>
        List.rel_append h hs

end

theorem alike_endsInReturn {L L' : List (String × String)} {body body' : List Code.Stmt}
    (h : BodiesAlike L L' body body') : endsInReturn body = endsInReturn body' := by
  have hlast : Option.Rel (Code.Stmt.Alike L L') body.getLast? body'.getLast? := by
    induction h with
    | nil => exact .none
    | cons h hrest ih =>
        cases hrest with
        | nil => exact .some h
        | cons h' hrest => simpa [List.getLast?_cons_cons] using ih
  unfold endsInReturn
  generalize body.getLast? = last at hlast ⊢
  generalize body'.getLast? = last' at hlast ⊢
  cases hlast with
  | none => rfl
  | some h => cases h <;> rfl

theorem parallel_newName (stem : String) : Parallel (fun _ _ name name' =>
    ∃ k k' : Nat, name = stem ++ k.repr ∧ name' = stem ++ k'.repr) (newName stem) (newName stem) :=
  fun _ _ => ⟨.refl _, .refl _, fun _ _ _ _ => ⟨_, _, rfl, rfl⟩⟩

theorem parallel_compileFunction (f : Function) :
    Parallel Code.Method.Alike (compileFunction f) (compileFunction f) := by
  refine (parallel_newName "code_").bind fun name name' _ _ _ => ?_
  refine (parallel_compileStmts f.body).bind fun body body' _ _ hends => .pure ?_
  intro L L' hb hnames
  refine ⟨hnames, ?_, rfl⟩
  dsimp only
  rw [alike_endsInReturn hends]
  split
  · exact hb
  · exact List.rel_append hb (.cons (.ret (.some (alike_const _))) .nil)

theorem parallel_compileProgram (program : List Stmt) :
    Parallel (fun L L' => List.Forall₂ (Code.Method.Alike L L')) (compileProgram program)
      (compileProgram program) := by
  induction program with
  | nil => exact .pure fun _ _ => .nil
  | cons st rest ih =>
      cases st with
      | function i f =>
          refine (parallel_compileFunction f).bind fun _ _ _ _ _ => ih.bind fun _ _ _ _ _ => .pure ?_
          exact fun _ _ hs h => .cons h hs
      | empty i => exact ih
      | expr | var | ret | block | loop => exact .refuse

/-- A source that is refused is refused from any state of the names, for the same reason at the same
place. -/
theorem compile_refused {names : Names} (names' : Names) {source : String} {r : Refusal}
    (h : (compile names source).1 = .error r) : (compile names' source).1 = .error r := by
  unfold compile at h ⊢
  cases hp : parse source with
  | error e =>
      rw [hp] at h
      exact h
  | ok program =>
      have hagrees := (parallel_compileProgram program { names } { names := names' }).2.2
      rw [hp] at h
      dsimp only at h ⊢
      generalize (compileProgram program).run.run { names } = x at h hagrees
      generalize (compileProgram program).run.run { names := names' } = y at hagrees ⊢
      obtain ⟨x, s⟩ := x
      obtain ⟨y, s'⟩ := y
      cases x with
      | ok methods => cases h
      | error e =>
          cases h
          cases y with
          | ok methods => exact hagrees.elim
          | error e' => exact congrArg Except.error (Eq.symm hagrees)

/-- Whether a source can be compiled depends on its text alone. From any two states of the names it is
refused for the same reason at the same place, or gives the same methods but for the given names and for
whether a name of the source is a local or one of the environment. -/
theorem compile_alike (names names' : Names) (source : String) :
    Agrees (fun t t' => List.Forall₂ (Code.Method.Alike (compile names source).2.locals
        (compile names' source).2.locals) t.methods t'.methods)
      (compile names source).1 (compile names' source).1 := by
  unfold compile
  cases parse source with
  | error r => exact rfl
  | ok program =>
      have h := (parallel_compileProgram program { names } { names := names' }).2.2
      dsimp only
      generalize (compileProgram program).run.run { names } = r at h ⊢
      generalize (compileProgram program).run.run { names := names' } = r' at h ⊢
      obtain ⟨r, s⟩ := r
      obtain ⟨r', s'⟩ := r'
      cases r <;> cases r' <;> first
        | exact h
        | exact h _ _ (.refl _) (.refl _)

end TwinView.Script
