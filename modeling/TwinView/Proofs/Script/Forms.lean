import Mathlib.Data.List.Forall2
import Mathlib.Tactic.SplitIfs
import TwinView.Proofs.Script.Yields

/-!
The forms of compiled scripts: what each form of an expression or a statement becomes, given what its parts
become. A property that goes from the parts to the whole in every form is one of all compiled scripts, and
to prove one only the forms have to be gone through, not the compiler.
-/

namespace TwinView.Script

variable {α β : Type} {I : Scope → Prop}

/-- Where the scope is as said, the compiler leaves it so and gives a result with the property. -/
def Within (I : Scope → Prop) (x : Compile α) (Q : α → Prop) : Prop :=
  ∀ s a s', I s → Yields x s a s' → I s' ∧ Q a

theorem gives_of_within {x : Compile α} {Q : α → Prop} (h : Within (fun _ => True) x Q) : Gives x Q :=
  fun s a s' ha => (h s a s' True.intro ha).2

theorem Gives.within {x : Compile α} {Q : α → Prop} (h : Gives x Q) : Within (fun _ => True) x Q :=
  fun s a s' _ ha => ⟨True.intro, h s a s' ha⟩

theorem Within.pure {Q : α → Prop} {a : α} (h : Q a) : Within I (pure a) Q := by
  intro s b s' hs hb
  obtain ⟨rfl, rfl⟩ := yields_pure.1 hb
  exact ⟨hs, h⟩

theorem Within.refuse {Q : α → Prop} {fault : ScriptFault} {i : Nat} : Within I (refuse fault i) Q :=
  fun _ _ _ _ h => absurd h yields_refuse

theorem Within.bind {Q : α → Prop} {R : β → Prop} {x : Compile α} {f : α → Compile β}
    (hx : Within I x Q) (hf : ∀ a, Q a → Within I (f a) R) : Within I (x >>= f) R := by
  intro s b s' hs h
  obtain ⟨a, t, ha, hb⟩ := yields_bind.1 h
  obtain ⟨ht, hq⟩ := hx s a t hs ha
  exact hf a hq t b s' ht hb

theorem Within.and_yields {x : Compile α} {Q : α → Prop} (h : Within I x Q) :
    Within I x fun a => (∃ s s', Yields x s a s') ∧ Q a := by
  intro s a s' hs ha
  obtain ⟨hs', hq⟩ := h s a s' hs ha
  exact ⟨hs', ⟨s, s', ha⟩, hq⟩

/-- What a name may become: one of the global constants, a variable, or a name that is looked up. -/
inductive NameCode : Code.Expr → Prop
  | undefined : NameCode .undefined
  | nan : NameCode (.number Double.nan)
  | infinity : NameCode (.number (Double.infinity false))
  | variableRef {type : Code.Ty} (h : type ≠ .void) (given : String) : NameCode (.variableRef type given)
  | extra (name : String) : NameCode (.extra name false)

theorem nameCode_compileName (usage : Usage) (name : String) :
    Gives (compileName usage name) NameCode := by
  have hextra : Gives (noteExtra name usage) NameCode := Gives.trivial.bind fun _ _ => .pure (.extra name)
  unfold compileName
  split_ifs
  · split
    · exact .pure .undefined
    · exact .pure .nan
    · exact .pure .infinity
    · exact hextra
  · split
    iterate 4 exact .pure (.variableRef (by simp) _)
    refine Gives.trivial.bind fun s _ => ?_
    split_ifs
    · exact Gives.trivial.bind fun _ _ => Gives.trivial.bind fun _ _ => .pure (.variableRef (by simp) _)
    · exact hextra

/-- The literals with their values. -/
inductive IsLiteral : Expr → Code.Primitive → Prop
  | number (i : Nat) (x : Double) : IsLiteral (.number i x) (.ofDouble x)
  | text (i : Nat) (s : String) : IsLiteral (.text i s) (.text s)
  | bool (i : Nat) (b : Bool) : IsLiteral (.bool i b) (.bool b)
  | null (i : Nat) : IsLiteral (.null i) .null

def PropertyKey.value : PropertyKey → Code.Primitive
  | .name s | .text _ s => .text s
  | .number _ x => .ofDouble x

inductive EachValue (P : Expr → Code.Expr → Prop) : List (PropertyKey × Expr) → List Code.Expr → Prop
  | nil : EachValue P [] []
  | cons (key : PropertyKey) {e : Expr} {c : Code.Expr} {props : List (PropertyKey × Expr)}
    {cs : List Code.Expr} : P e c → EachValue P props cs →
    EachValue P ((key, e) :: props) (.const key.value :: c :: cs)

section OfCode

variable {Q : Code.Expr → Prop}

theorem forall_of_forall₂ {es : List Expr} {cs : List Code.Expr}
    (h : List.Forall₂ (fun _ c => Q c) es cs) : ∀ c ∈ cs, Q c := by
  induction h with
  | nil => simp
  | cons h _ ih => exact List.forall_mem_cons.2 ⟨h, ih⟩

theorem forall_of_eachValue (hconst : ∀ value, Q (.const value)) {props : List (PropertyKey × Expr)}
    {cs : List Code.Expr} (h : EachValue (fun _ c => Q c) props cs) : ∀ c ∈ cs, Q c := by
  induction h with
  | nil => simp
  | cons _ h _ ih => exact List.forall_mem_cons.2 ⟨hconst _, List.forall_mem_cons.2 ⟨h, ih⟩⟩

theorem forall_of_rel {e : Option Expr} {c : Option Code.Expr}
    (h : Option.Rel (fun _ c => Q c) e c) : ∀ x ∈ c, Q x := by
  cases h with
  | none => simp
  | some h => simpa using h

end OfCode

theorem calledMethod?_eq_some {callee object : Code.Expr} {method : String}
    (h : calledMethod? callee = some (object, method)) :
    ∃ value p q, callee = .property object (.prim value p) q ∧ method = value.toText := by
  unfold calledMethod? at h
  split at h
  · next target key q =>
      obtain ⟨value, hvalue, he⟩ := Option.map_eq_some_iff.1 h
      cases he
      cases key with
      | prim value' p =>
          cases hvalue
          exact ⟨_, _, _, rfl, rfl⟩
      | _ => cases hvalue
  · cases h

def withEnd : List Code.Expr → List Code.Expr
  | start :: length :: rest => start :: Code.Expr.lowerBinary (.arith .add) start length :: rest
  | args => args

/-- The methods of texts with what their calls become. -/
inductive CallCode (object : Code.Expr) (args : List Code.Expr) : String → Code.Expr → Prop
  | toString : CallCode object args "toString" object.ensureText
  | substring : CallCode object args "substring" (.invokeOn .string object.ensureText "substring" args)
  | substr : CallCode object args "substr" (.invokeOn .string object.ensureText "substring" (withEnd args))

theorem callCode_of_methodCall? {object c : Code.Expr} {method : String} {args : List Code.Expr}
    (h : methodCall? object method args = some c) : CallCode object args method c := by
  unfold methodCall? at h
  split at h
  · cases h
    exact .toString
  · cases h
    exact .substring
  · cases h
    exact .substr
  · cases h

/-- The test of a type by the method that looks at the class. -/
def typeTestCode (target : Code.Expr) (method : String) : Code.Expr :=
  .either (Code.Expr.operate (.compare .identical) target .null).withParens (.bool false)
    (.invokeHelper .boolean method [.invokeOn .classRef target "getClass" []])

theorem typeTest?_eq_some {target c : Code.Expr} {name : String} (h : typeTest? target name = some c) :
    ∃ method ∈ ["isArray", "isDate"], c = typeTestCode target method := by
  unfold typeTest? at h
  dsimp only at h
  split at h
  · cases h
    exact ⟨_, by simp, rfl⟩
  · cases h
    exact ⟨_, by simp, rfl⟩
  · cases h

/-- The code comes from compiling the expression, which may be a name that is assigned to. -/
def ComesFrom (e : Expr) (c : Code.Expr) : Prop :=
  (∃ s s', Yields (compileExpr e) s c s') ∨
    ∃ usage i name s s', e = .name i name ∧ Yields (compileName usage name) s c s'

theorem ComesFrom.of_gives {P : Expr → Code.Expr → Prop} (he : ∀ e, Gives (compileExpr e) (P e))
    (hn : ∀ usage i name, Gives (compileName usage name) (P (.name i name))) {e : Expr} {c : Code.Expr}
    (h : ComesFrom e c) : P e c := by
  obtain ⟨s, s', h⟩ | ⟨usage, i, name, s, s', rfl, h⟩ := h
  · exact he e s c s' h
  · exact hn usage i name s c s' h

/-- A property of expressions with their code that goes from the parts to the whole in every form. Of a
part it may also be used that its code comes from compiling it. -/
structure Carries (I : Scope → Prop) (P : Expr → Code.Expr → Prop) : Prop where
  name usage i name : usage ≠ .declare → Within I (compileName usage name) (P (.name i name))
  literal {e value} : IsLiteral e value → P e (.const value)
  parens {e c} i : P e c → P (.parens i e) c.withParens
  member {e c} i name : P e c → P (.member i e name) (.propertyOf c (.text name))
  index {e c key k} i : P e c → P key k → P (.index i e key) (.propertyOf c k)
  call {target callee object method args cs c} i : ComesFrom target callee → P target callee →
    calledMethod? callee = some (object, method) → List.Forall₂ P args cs →
    methodCall? object method cs = some c → P (.call i target args) c
  newSize {arg x} i j size : literalNumber? arg = some x →
    P (.new i (.name j "Array") [arg]) (.array .object size [] false)
  newItems {args cs} i j : List.Forall₂ P args cs →
    P (.new i (.name j "Array") args) (.array .object 0 cs false)
  unary {e c} i op : ComesFrom e c → P e c → P (.unary i op e) (.lowerUnary op c)
  typeOf {e c} i : P e c → P (.typeOf i e) (.invokeHelper .string "typeOf" [c])
  binary {left l right r} i op : ComesFrom left l → P left l → P right r →
    P (.binary i op left right) (.lowerBinary op l r)
  isIn {key k target t} i : P key k → P target t →
    P (.isIn i key target) (.invokeHelper .boolean "containsKey" [t, k])
  instanceOf {target t name c} i j : P target t → typeTest? t name = some c →
    P (.instanceOf i target (.name j name)) c
  cond {test t yes y no n} i : P test t → P yes y → P no n →
    P (.cond i test yes no) (.lowerTernary t y n)
  object {props cs} i : EachValue P props cs → P (.object i props) (.invokeHelper .map "asMap" cs)
  array {items cs} i : List.Forall₂ P items cs → P (.array i items) (.array .object 0 cs false)

namespace Carries

variable {P : Expr → Code.Expr → Prop}

mutual

/-- By induction on the syntax: what is carried is a property of every compiled expression. -/
theorem within_compileExpr (h : Carries I P) : ∀ e : Expr, Within I (compileExpr e) (P e)
  | .name i name => h.name .read i name nofun
  | .number i x => .pure (h.literal (.number i x))
  | .text i s => .pure (h.literal (.text i s))
  | .bool i b => .pure (h.literal (.bool i b))
  | .null i => .pure (h.literal (.null i))
  | .this _ | .comma _ _ | .function _ _ => .refuse
  | .parens i inner => (h.within_compileExpr inner).bind fun _ hi => .pure (h.parens i hi)
  | .member i target name => (h.within_compileExpr target).bind fun _ ht => .pure (h.member i name ht)
  | .index i target key => (h.within_compileExpr target).bind fun _ ht =>
      (h.within_compileExpr key).bind fun _ hk => .pure (h.index i ht hk)
  | .call i target args => by
      unfold compileExpr
      refine (h.within_compileExpr target).and_yields.bind fun callee hc => ?_
      split
      · exact .refuse
      · next object method hm =>
          refine (h.within_compileExprs args).bind fun cs ha => ?_
          split
          · next c he => exact .pure (h.call i (.inl hc.1) hc.2 hm ha he)
          · exact .refuse
  | .new i target args => by
      obtain ⟨j, rfl, ⟨arg, x, rfl, hx, ⟨size, hnew⟩ | hnew⟩ | hnew⟩ | hnew := compileExpr_new i target args
      · rw [hnew]
        exact .pure (h.newSize i j size hx)
      · rw [hnew]
        exact .refuse
      · rw [hnew]
        exact (h.within_compileExprs args).bind fun _ ha => .pure (h.newItems i j ha)
      · rw [hnew]
        exact .refuse
  | .unary i op operand => (h.within_compileExpr operand).and_yields.bind fun _ ho =>
      .pure (h.unary i op (.inl ho.1) ho.2)
  | .typeOf i operand => (h.within_compileExpr operand).bind fun _ ho => .pure (h.typeOf i ho)
  | .binary i op left right => by
      have hrest (l : Code.Expr) (hl : ComesFrom left l) (hp : P left l) : Within I
          (compileExpr right >>= fun r => pure (Code.Expr.lowerBinary op l r))
          (P (.binary i op left right)) :=
        (h.within_compileExpr right).bind fun _ hr => .pure (h.binary i op hl hp hr)
      unfold compileExpr
      dsimp only
      split
      · next j name =>
          have hu : (if op = .assign then .assign else .read : Usage) ≠ .declare := by split <;> simp
          refine (h.name _ j name hu).and_yields.bind fun l hl => ?_
          obtain ⟨⟨s, s', hy⟩, hp⟩ := hl
          exact hrest l (.inr ⟨_, j, name, s, s', rfl, hy⟩) hp
      · exact (h.within_compileExpr left).and_yields.bind fun l hl => hrest l (.inl hl.1) hl.2
  | .isIn i key target => (h.within_compileExpr key).bind fun _ hk =>
      (h.within_compileExpr target).bind fun _ ht => .pure (h.isIn i hk ht)
  | .instanceOf i target type => by
      unfold compileExpr
      refine (h.within_compileExpr target).bind fun _ ht => ?_
      split
      · split
        · next c hc => exact .pure (h.instanceOf i _ ht hc)
        · exact .refuse
      · exact .refuse
  | .cond i test yes no => (h.within_compileExpr test).bind fun _ ht =>
      (h.within_compileExpr yes).bind fun _ hy => (h.within_compileExpr no).bind fun _ hn =>
        .pure (h.cond i ht hy hn)
  | .object i props => (h.within_compileProps props).bind fun _ hp => .pure (h.object i hp)
  | .array i items => (h.within_compileExprs items).bind fun _ hi => .pure (h.array i hi)

theorem within_compileExprs (h : Carries I P) :
    ∀ es : List Expr, Within I (compileExprs es) (List.Forall₂ P es)
  | [] => .pure .nil
  | e :: rest => (h.within_compileExpr e).bind fun _ he =>
      (h.within_compileExprs rest).bind fun _ hs => .pure (.cons he hs)

theorem within_compileProps (h : Carries I P) :
    ∀ props : List (PropertyKey × Expr), Within I (compileProps props) (EachValue P props)
  | [] => .pure .nil
  | (key, value) :: rest => (h.within_compileExpr value).bind fun _ hv =>
      (h.within_compileProps rest).bind fun _ hs => .pure (by
        cases key <;> exact .cons _ hv hs)

end

theorem gives_compileExpr (h : Carries (fun _ => True) P) (e : Expr) : Gives (compileExpr e) (P e) :=
  gives_of_within (h.within_compileExpr e)

end Carries

section Parts

variable (P : Expr → Code.Expr → Prop)

/-- The test of a loop with its code; without one it goes on. -/
inductive TestCode : Option Expr → Code.Expr → Prop
  | none : TestCode none (.bool true)
  | some {e : Expr} {c : Code.Expr} : P e c → TestCode (some e) c

abbrev DeclCode (d : Decl) (c : Code.VarDecl) : Prop := Option.Rel P d.init c.init

/-- The head of a loop with its code; only expressions and declarations have one. -/
inductive HeadCode : Option Stmt → Option Code.Stmt → Prop
  | expr (i : Nat) {e : Expr} {c : Code.Expr} : P e c → HeadCode (some (.expr i e)) (some (.expr c))
  | var (i : Nat) {ds : List Decl} {cs : List Code.VarDecl} : List.Forall₂ (DeclCode P) ds cs →
    HeadCode (some (.var i ds)) (some (declStmt cs))
  | none {init : Option Stmt} : (∀ i e, init ≠ some (.expr i e)) → (∀ i ds, init ≠ some (.var i ds)) →
    HeadCode init none

end Parts

/-- A function with its method, given what is known of the statements in it. -/
structure MethodCode (L : List Stmt → List Code.Stmt → Prop) (f : Function) (m : Code.Method) : Prop where
  returns : m.returns = .object
  params : m.params = Code.renderParams
  body : ∃ code, L f.body code ∧ (m.body = code ∨ m.body = code ++ [.ret (some .undefined)])

inductive ProgramCode (M : Function → Code.Method → Prop) : List Stmt → List Code.Method → Prop
  | nil : ProgramCode M [] []
  | function (i : Nat) {f : Function} {m : Code.Method} {rest : List Stmt} {ms : List Code.Method} :
    M f m → ProgramCode M rest ms → ProgramCode M (.function i f :: rest) (m :: ms)
  | empty (i : Nat) {rest : List Stmt} {ms : List Code.Method} : ProgramCode M rest ms →
    ProgramCode M (.empty i :: rest) ms

theorem ProgramCode.forall_mem {M : Function → Code.Method → Prop} {program : List Stmt}
    {ms : List Code.Method} (h : ProgramCode M program ms) {Q : Code.Method → Prop}
    (hM : ∀ f m, M f m → Q m) : ∀ m ∈ ms, Q m := by
  induction h with
  | nil => simp
  | function _ hm _ ih => exact List.forall_mem_cons.2 ⟨hM _ _ hm, ih⟩
  | empty _ _ ih => exact ih

section Options

variable {P : Expr → Code.Expr → Prop} (hP : ∀ e, Gives (compileExpr e) (P e))

include hP

theorem gives_compileOption (e : Option Expr) : Gives (compileOption e) (Option.Rel P e) := by
  cases e with
  | none => exact .pure .none
  | some e => exact (hP e).bind fun _ h => .pure (.some h)

theorem gives_compileTest (e : Option Expr) : Gives (compileTest e) (TestCode P e) := by
  cases e with
  | none => exact .pure .none
  | some e => exact (hP e).mono fun _ h => .some h

theorem gives_compileDecls (ds : List Decl) :
    Gives (compileDecls ds) (List.Forall₂ (DeclCode P) ds) := by
  induction ds with
  | nil => exact .pure .nil
  | cons d rest ih =>
      have hdecl : Gives (compileDecl d) (DeclCode P d) := by
        unfold compileDecl
        refine Gives.trivial.bind fun _ _ => ?_
        split
        · exact (gives_compileOption hP d.init).bind fun _ h => .pure h
        · exact .refuse
      exact hdecl.bind fun _ hd => ih.bind fun _ hds => .pure (.cons hd hds)

theorem gives_compileHead (init : Option Stmt) : Gives (compileHead init) (HeadCode P init) := by
  unfold compileHead
  split
  · exact (hP _).bind fun _ h => .pure (.expr _ h)
  · exact (gives_compileDecls hP _).bind fun _ h => .pure (.var _ h)
  · next hexpr hvar => exact .pure (.none hexpr hvar)

end Options

/-- Properties of statements and of lists of them with their code that go from the parts to the whole in
every form, where expressions have the property `P`. -/
structure CarriesStmts (P : Expr → Code.Expr → Prop) (S : Stmt → List Code.Stmt → Prop)
    (L : List Stmt → List Code.Stmt → Prop) : Prop where
  expr {e c} i : P e c → S (.expr i e) [.expr c]
  var {ds cs} i : List.Forall₂ (DeclCode P) ds cs → S (.var i ds) [declStmt cs]
  retNone i : S (.ret i none) [.ret (some .undefined)]
  retSome {e c} i : P e c → S (.ret i (some e)) [.ret (some c)]
  block {body code} i : L body code → S (.block i body) code
  loop {init head test c update step body code} i j : HeadCode P init head → TestCode P test c →
    Option.Rel P update step → L body code →
    S (.loop i init test update (.block j body)) [.loop head c (step.map fun e => .expr e) code]
  empty i : S (.empty i) []
  nil : L [] []
  cons {st first rest others} : S st first → L rest others → L (st :: rest) (first ++ others)

namespace CarriesStmts

variable {P : Expr → Code.Expr → Prop} {S : Stmt → List Code.Stmt → Prop}
  {L : List Stmt → List Code.Stmt → Prop}

mutual

theorem gives_compileStmt (h : CarriesStmts P S L) (hP : ∀ e, Gives (compileExpr e) (P e)) :
    ∀ st : Stmt, Gives (compileStmt st) (S st)
  | .expr i e => (hP e).bind fun _ he => .pure (h.expr i he)
  | .var i decls => (gives_compileDecls hP decls).bind fun _ hd => .pure (h.var i hd)
  | .ret i none => .pure (h.retNone i)
  | .ret i (some e) => (hP e).bind fun _ he => .pure (h.retSome i he)
  | .block i body => (h.gives_compileStmts hP body).mono fun _ hb => h.block i hb
  | .loop i init test update body => by
      unfold compileStmt
      refine (gives_compileHead hP init).bind fun head hi => ?_
      refine (gives_compileTest hP test).bind fun c ht => ?_
      refine (gives_compileOption hP update).bind fun step hs => ?_
      cases body with
      | block j stmts =>
          exact (h.gives_compileStmts hP stmts).bind fun _ hb => .pure (h.loop i j hi ht hs hb)
      | _ => exact .refuse
  | .function _ _ => .refuse
  | .empty i => .pure (h.empty i)

theorem gives_compileStmts (h : CarriesStmts P S L) (hP : ∀ e, Gives (compileExpr e) (P e)) :
    ∀ body : List Stmt, Gives (compileStmts body) (L body)
  | [] => .pure h.nil
  | st :: rest => (h.gives_compileStmt hP st).bind fun _ hs =>
      (h.gives_compileStmts hP rest).bind fun _ hr => .pure (h.cons hs hr)

end

theorem gives_compileFunction (h : CarriesStmts P S L) (hP : ∀ e, Gives (compileExpr e) (P e))
    (f : Function) : Gives (compileFunction f) (MethodCode L f) := by
  refine Gives.trivial.bind fun _ _ => (h.gives_compileStmts hP f.body).bind fun body hb => .pure ?_
  refine ⟨rfl, rfl, body, hb, ?_⟩
  dsimp only
  split
  · exact Or.inl rfl
  · exact Or.inr rfl

theorem gives_compileProgram (h : CarriesStmts P S L) (hP : ∀ e, Gives (compileExpr e) (P e)) :
    ∀ program : List Stmt, Gives (compileProgram program) (ProgramCode (MethodCode L) program)
  | [] => .pure .nil
  | .function i f :: rest => (h.gives_compileFunction hP f).bind fun _ hm =>
      (h.gives_compileProgram hP rest).bind fun _ hms => .pure (.function i hm hms)
  | .empty i :: rest => (h.gives_compileProgram hP rest).mono fun _ hms => .empty i hms
  | .expr _ _ :: _ | .var _ _ :: _ | .ret _ _ :: _ | .block _ _ :: _ | .loop _ _ _ _ _ :: _ => .refuse

end CarriesStmts

end TwinView.Script
