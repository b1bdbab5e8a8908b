import TwinView.Proofs.Code.Subterms
import TwinView.Proofs.Script.Similar

/-!
What the code of a script refers to: its parameters, its own locals, and a few methods of the class.
Expressions declare nothing, so the locals change only where the code has a declaration.
-/

namespace TwinView.Script

open Code.Expr (IsScriptCode AllScriptCode isScriptCode_const isScriptCode_helper
  isScriptCode_invokeOn allScriptCode_one allScriptCode_two)
open Code.Stmt (forall_allOf_append forall_allOf_expr forall_allOf_ret forall_allOf_loop forall_allOf_step)

variable {α β : Type} {locals : List (String × String)}

/-- The variables that a script knows: what is bound and its locals. -/
def Known (locals : List (String × String)) (name : String) : Prop :=
  name ∈ CodeBlock.boundNames ∨ ∃ key, locals.lookup key = some name

/-- With these locals, the compiler declares nothing and gives a result with a property. -/
def Refers (locals : List (String × String)) (x : Compile α) (Q : α → Prop) : Prop :=
  ∀ s a s', s.names.locals = locals → Yields x s a s' → s'.names.locals = locals ∧ Q a

theorem refers_iff_within {x : Compile α} {Q : α → Prop} :
    Refers locals x Q ↔ Within (·.names.locals = locals) x Q := Iff.rfl

theorem Refers.pure {Q : α → Prop} {a : α} (h : Q a) : Refers locals (pure a) Q :=
  refers_iff_within.2 (.pure h)

theorem Refers.bind {Q : α → Prop} {R : β → Prop} {x : Compile α} {f : α → Compile β}
    (hx : Refers locals x Q) (hf : ∀ a, Q a → Refers locals (f a) R) : Refers locals (x >>= f) R :=
  refers_iff_within.2 (.bind hx hf)

theorem refers_noteExtra (name : String) (usage : Usage) :
    Refers locals (noteExtra name usage) (IsScriptCode (Known locals)) := by
  intro s a s' hs h
  cases h
  refine ⟨?_, True.intro⟩
  dsimp only
  split <;> exact hs

theorem refers_compileName {usage : Usage} (hu : usage ≠ .declare) (name : String) :
    Refers locals (compileName usage name) (IsScriptCode (Known locals)) := by
  unfold compileName
  split
  · split
    iterate 3 exact .pure (isScriptCode_const _)
    exact refers_noteExtra _ _
  · split
    · exact .pure (Or.inl (by simp [CodeBlock.boundNames]))
    · exact .pure (Or.inl (by simp [CodeBlock.boundNames]))
    · exact .pure (Or.inl (by simp [CodeBlock.boundNames]))
    · exact .pure (Or.inl (by simp [CodeBlock.boundNames]))
    · intro s a s' hs h
      obtain ⟨_, t, hget, hrest⟩ := yields_bind.1 h
      obtain ⟨rfl, rfl⟩ := yields_get.1 hget
      split at hrest
      · next hlocal =>
          -- a name that is read is a local already, so that it keeps its new name
          have hsome : (t.names.locals.lookup name).isSome := by
            simpa [hu, Code.Names.isLocal] using hlocal
          obtain ⟨given, hgiven⟩ := Option.isSome_iff_exists.1 hsome
          have hrename : t.names.rename name = (given, t.names) := by
            simp [Code.Names.rename, hgiven]
          simp only [localName, yields_bind, yields_get, yields_set, yields_pure] at hrest
          obtain ⟨_, _, ⟨rfl, rfl⟩, _, _, rfl, rfl, rfl⟩ := hrest
          rw [hrename]
          exact ⟨hs, Or.inr ⟨name, hs ▸ hgiven⟩⟩
      · exact refers_noteExtra name usage t a s' hs hrest

theorem isScriptCode_of_calledMethod? {known : String → Prop} {callee object : Code.Expr}
    {method : String} (hc : callee.IsScriptCode known)
    (h : calledMethod? callee = some (object, method)) : object.IsScriptCode known := by
  obtain ⟨_, _, _, rfl, -⟩ := calledMethod?_eq_some h
  exact hc.2.1

theorem allScriptCode_withEnd {known : String → Prop} {args : List Code.Expr}
    (h : AllScriptCode known args) : AllScriptCode known (withEnd args) := by
  unfold withEnd
  split
  · exact ⟨h.1, IsScriptCode.lowerBinary _ h.1 h.2.1, h.2.2⟩
  · exact h

theorem isScriptCode_of_methodCall? {known : String → Prop} {target e : Code.Expr} {method : String}
    {args : List Code.Expr} (ht : target.IsScriptCode known) (ha : AllScriptCode known args)
    (h : methodCall? target method args = some e) : e.IsScriptCode known := by
  have hm : "substring" ∈ Code.Expr.scriptMethods := by simp [Code.Expr.scriptMethods]
  cases callCode_of_methodCall? h with
  | toString => exact ht.ensureText
  | substring => exact isScriptCode_invokeOn _ hm ht.ensureText ha
  | substr => exact isScriptCode_invokeOn _ hm ht.ensureText (allScriptCode_withEnd ha)

theorem isScriptCode_of_typeTest? {known : String → Prop} {target e : Code.Expr} {name : String}
    (ht : target.IsScriptCode known) (h : typeTest? target name = some e) : e.IsScriptCode known := by
  obtain ⟨method, hmethod, rfl⟩ := typeTest?_eq_some h
  have hm : method ∈ Code.Expr.scriptMethods := by
    have hall : ["isArray", "isDate"] ⊆ Code.Expr.scriptMethods := by simp [Code.Expr.scriptMethods]
    exact hall hmethod
  refine ⟨True.intro, ?_, True.intro, isScriptCode_helper _ hm (allScriptCode_one ?_)⟩
  · exact IsScriptCode.setParens (Code.Expr.isScriptCode_operate _ ht (isScriptCode_const _)) _
  · exact isScriptCode_invokeOn _ (by simp [Code.Expr.scriptMethods]) ht True.intro

theorem allScriptCode_of_forall₂ {known : String → Prop} {es : List Expr} {cs : List Code.Expr}
    (h : List.Forall₂ (fun _ c => c.IsScriptCode known) es cs) : AllScriptCode known cs := by
  induction h with
  | nil => exact True.intro
  | cons h _ ih => exact ⟨h, ih⟩

theorem allScriptCode_of_eachValue {known : String → Prop} {props : List (PropertyKey × Expr)}
    {cs : List Code.Expr} (h : EachValue (fun _ c => c.IsScriptCode known) props cs) :
    AllScriptCode known cs := by
  induction h with
  | nil => exact True.intro
  | cons _ h _ ih => exact ⟨isScriptCode_const _, h, ih⟩

theorem isScriptCode_array {known : String → Prop} (size : Nat) {items : List Code.Expr}
    (h : AllScriptCode known items) : (Code.Expr.array .object size items false).IsScriptCode known :=
  ⟨True.intro, h⟩

theorem carries_isScriptCode :
    Carries (·.names.locals = locals) fun _ c => c.IsScriptCode (Known locals) where
  name _ _ name hu := refers_compileName hu name
  literal _ := isScriptCode_const _
  parens _ h := h.setParens _
  member _ _ h := ⟨True.intro, h, isScriptCode_const _⟩
  index _ h hk := ⟨True.intro, h, hk⟩
  call _ _ h hm ha hc :=
    isScriptCode_of_methodCall? (isScriptCode_of_calledMethod? h hm) (allScriptCode_of_forall₂ ha) hc
  newSize _ _ size _ := isScriptCode_array size True.intro
  newItems _ _ h := isScriptCode_array 0 (allScriptCode_of_forall₂ h)
  unary _ op _ h := h.lowerUnary op
  typeOf _ h := isScriptCode_helper _ (by simp [Code.Expr.scriptMethods]) (allScriptCode_one h)
  binary _ op _ hl hr := hl.lowerBinary op hr
  isIn _ hk ht := isScriptCode_helper _ (by simp [Code.Expr.scriptMethods]) (allScriptCode_two ht hk)
  instanceOf _ _ h hc := isScriptCode_of_typeTest? h hc
  cond _ ht hy hn := ht.lowerTernary hy hn
  object _ h := isScriptCode_helper _ (by simp [Code.Expr.scriptMethods]) (allScriptCode_of_eachValue h)
  array _ h := isScriptCode_array 0 (allScriptCode_of_forall₂ h)

theorem refers_compileExpr (e : Expr) : Refers locals (compileExpr e) (IsScriptCode (Known locals)) :=
  carries_isScriptCode.within_compileExpr e

def IsDecl : Code.Stmt → Prop
  | .var _ | .vars _ => True
  | _ => False

def NoDecls (body : List Code.Stmt) : Prop := ∀ st ∈ Code.Stmt.allOf body, ¬ IsDecl st

def IsScriptStmt (known : String → Prop) : Code.Stmt → Prop
  | .expr e _ => e.IsScriptCode known
  | .ret value => ∀ e ∈ value, e.IsScriptCode known
  | .cond test _ _ => test.IsScriptCode known
  | .loop _ test _ _ => test.IsScriptCode known
  | .var _ | .vars _ => False
  | .comment _ => True

def AllScriptStmts (known : String → Prop) (body : List Code.Stmt) : Prop :=
  ∀ st ∈ Code.Stmt.allOf body, IsScriptStmt known st

/-- With these locals, the compiler gives code that, if it declares nothing, knows no others. -/
def RefersUnless (locals : List (String × String)) (x : Compile α) (code : α → List Code.Stmt) : Prop :=
  ∀ s a s', s.names.locals = locals → Yields x s a s' → NoDecls (code a) →
    s'.names.locals = locals ∧ AllScriptStmts (Known locals) (code a)

theorem allScriptStmts_append {known : String → Prop} {a b : List Code.Stmt}
    (ha : AllScriptStmts known a) (hb : AllScriptStmts known b) : AllScriptStmts known (a ++ b) :=
  forall_allOf_append.2 ⟨ha, hb⟩

theorem noDecls_append {a b : List Code.Stmt} (h : NoDecls (a ++ b)) : NoDecls a ∧ NoDecls b :=
  forall_allOf_append.1 h

theorem Refers.unless {x : Compile α} {Q : α → Prop} {code : α → List Code.Stmt}
    (h : Refers locals x Q) (hc : ∀ a, Q a → AllScriptStmts (Known locals) (code a)) :
    RefersUnless locals x code := by
  intro s a s' hs hy _
  obtain ⟨hs', hq⟩ := h s a s' hs hy
  exact ⟨hs', hc a hq⟩

theorem allScriptStmts_expr {known : String → Prop} {e : Code.Expr} (h : e.IsScriptCode known) :
    AllScriptStmts known [.expr e] := forall_allOf_expr.2 h

theorem allScriptStmts_ret {known : String → Prop} {e : Code.Expr} (h : e.IsScriptCode known) :
    AllScriptStmts known [.ret (some e)] :=
  forall_allOf_ret.2 (by simpa [IsScriptStmt] using h)

theorem not_noDecls_declStmt (ds : List Code.VarDecl) : ¬ NoDecls [declStmt ds] := by
  intro h
  have hmem : declStmt ds ∈ Code.Stmt.allOf [declStmt ds] := by
    unfold declStmt
    split <;> simp [Code.Stmt.allOf, Code.Stmt.withInner]
  have hdecl : IsDecl (declStmt ds) := by
    unfold declStmt
    split <;> exact True.intro
  exact h _ hmem hdecl

theorem refersUnless_compileHead (init : Option Stmt) :
    RefersUnless locals (compileHead init) Option.toList := by
  unfold compileHead
  split
  · refine Refers.unless (Q := fun r => AllScriptStmts (Known locals) r.toList) ?_ fun _ h => h
    exact (refers_compileExpr _).bind fun _ h => .pure (allScriptStmts_expr h)
  · intro s a s' hs hy hn
    obtain ⟨ds, t, -, hy⟩ := yields_bind.1 hy
    obtain ⟨rfl, -⟩ := yields_pure.1 hy
    exact absurd hn (not_noDecls_declStmt ds)
  · intro s a s' hs hy _
    obtain ⟨rfl, rfl⟩ := yields_pure.1 hy
    exact ⟨hs, by simp [AllScriptStmts, Code.Stmt.allOf]⟩

theorem refers_compileTest (e : Option Expr) :
    Refers locals (compileTest e) (IsScriptCode (Known locals)) := by
  cases e with
  | none => exact .pure (isScriptCode_const _)
  | some e => exact refers_compileExpr e

theorem refers_compileOption (e : Option Expr) :
    Refers locals (compileOption e) fun r => ∀ e ∈ r, e.IsScriptCode (Known locals) := by
  cases e with
  | none => exact .pure (by simp)
  | some e => exact (refers_compileExpr e).bind fun _ h => .pure (by simpa using h)

theorem noDecls_loop {init step : Option Code.Stmt} {test : Code.Expr} {body : List Code.Stmt}
    (h : NoDecls [.loop init test step body]) : NoDecls init.toList ∧ NoDecls body := by
  obtain ⟨-, hi, -, hb⟩ := forall_allOf_loop.1 h
  exact ⟨hi, hb⟩

theorem allScriptStmts_loop {known : String → Prop} {init : Option Code.Stmt} {test : Code.Expr}
    {step : Option Code.Expr} {body : List Code.Stmt} (hi : AllScriptStmts known init.toList)
    (ht : test.IsScriptCode known) (hs : ∀ e ∈ step, e.IsScriptCode known)
    (hb : AllScriptStmts known body) :
    AllScriptStmts known [.loop init test (step.map fun e => .expr e) body] :=
  forall_allOf_loop.2 ⟨ht, hi, forall_allOf_step.2 hs, hb⟩

mutual

theorem refersUnless_compileStmt :
    ∀ st : Stmt, RefersUnless locals (compileStmt st) id
  | .expr _ e => Refers.unless
      ((refers_compileExpr e).bind fun _ h => .pure (allScriptStmts_expr h)) fun _ h => h
  | .var _ decls => by
      intro s a s' hs hy hn
      obtain ⟨ds, t, -, hy⟩ := yields_bind.1 hy
      obtain ⟨rfl, -⟩ := yields_pure.1 hy
      exact absurd hn (not_noDecls_declStmt ds)
  | .ret _ none => Refers.unless (.pure (allScriptStmts_ret (isScriptCode_const _))) fun _ h => h
  | .ret _ (some e) => Refers.unless
      ((refers_compileExpr e).bind fun _ h => .pure (allScriptStmts_ret h)) fun _ h => h
  | .block _ body => refersUnless_compileStmts body
  | .loop _ init test update body => by
      intro s a s' hs hy hn
      unfold compileStmt at hy
      obtain ⟨head, t₁, hhead, hy⟩ := yields_bind.1 hy
      obtain ⟨c, t₂, htest, hy⟩ := yields_bind.1 hy
      obtain ⟨step, t₃, hstep, hy⟩ := yields_bind.1 hy
      cases body with
      | block start stmts =>
          obtain ⟨b, t₄, hbody, hy⟩ := yields_bind.1 hy
          obtain ⟨rfl, rfl⟩ := yields_pure.1 hy
          obtain ⟨hni, hnb⟩ := noDecls_loop hn
          obtain ⟨h₁, hi⟩ := refersUnless_compileHead init s head t₁ hs hhead hni
          obtain ⟨h₂, ht⟩ := refers_compileTest test t₁ c t₂ h₁ htest
          obtain ⟨h₃, hs'⟩ := refers_compileOption update t₂ step t₃ h₂ hstep
          obtain ⟨h₄, hb⟩ := refersUnless_compileStmts stmts t₃ b s' h₃ hbody hnb
          exact ⟨h₄, allScriptStmts_loop hi ht hs' hb⟩
      | _ => exact absurd hy yields_refuse
  | .function _ _ => fun _ _ _ _ hy => absurd hy yields_refuse
  | .empty _ => Refers.unless (Q := fun a => a = [])
      (.pure rfl) fun _ h => by simp [h, AllScriptStmts, Code.Stmt.allOf]

theorem refersUnless_compileStmts :
    ∀ body : List Stmt, RefersUnless locals (compileStmts body) id
  | [] => Refers.unless (Q := fun a => a = [])
      (.pure rfl) fun _ h => by simp [h, AllScriptStmts, Code.Stmt.allOf]
  | st :: rest => by
      intro s a s' hs hy hn
      obtain ⟨first, t, hfirst, hy⟩ := yields_bind.1 hy
      obtain ⟨others, t', hrest, hy⟩ := yields_bind.1 hy
      obtain ⟨rfl, rfl⟩ := yields_pure.1 hy
      obtain ⟨hnf, hnr⟩ := noDecls_append hn
      obtain ⟨h₁, hf⟩ := refersUnless_compileStmt st s first t hs hfirst hnf
      obtain ⟨h₂, hr⟩ := refersUnless_compileStmts rest t others s' h₁ hrest hnr
      exact ⟨h₂, allScriptStmts_append hf hr⟩

end

theorem refersUnless_compileFunction (f : Function) :
    RefersUnless locals (compileFunction f) (·.body) := by
  intro s m s' hs hy hn
  obtain ⟨name, t, hname, hy⟩ := yields_bind.1 hy
  obtain ⟨body, t', hbody, hy⟩ := yields_bind.1 hy
  obtain ⟨rfl, rfl⟩ := yields_pure.1 hy
  cases hname
  have hret : AllScriptStmts (Known locals) [.ret (some .undefined)] :=
    allScriptStmts_ret (isScriptCode_const _)
  dsimp only at hn ⊢
  split at hn
  · next hend =>
      rw [if_pos hend]
      refine refersUnless_compileStmts f.body _ body s' ?_ hbody hn
      exact hs
  · next hend =>
      rw [if_neg hend]
      refine (refersUnless_compileStmts f.body _ body s' ?_ hbody (noDecls_append hn).1).imp_right
        fun hb => allScriptStmts_append hb hret
      exact hs

theorem compileProgram_refers_head (program : List Stmt) :
    ∀ s m ms s', s.names.locals = locals → Yields (compileProgram program) s (m :: ms) s' →
      NoDecls m.body → AllScriptStmts (Known locals) m.body := by
  fun_induction compileProgram program with
  | case1 =>
      intro s m ms s' _ hy
      cases (yields_pure.1 hy).1
  | case2 _ f rest ih =>
      intro s m ms s' hs hy hn
      obtain ⟨m', t, hm, hy⟩ := yields_bind.1 hy
      obtain ⟨ms', t', hms, hy⟩ := yields_bind.1 hy
      cases (yields_pure.1 hy).1
      exact (refersUnless_compileFunction f s m t hs hm hn).2
  | case3 _ rest ih => exact ih
  | case4 st rest =>
      intro s m ms s' _ hy
      exact absurd hy yields_refuse

theorem compileProgram_refers (program : List Stmt) :
    ∀ s ms s', s.names.locals = locals → Yields (compileProgram program) s ms s' →
      (∀ m ∈ ms, NoDecls m.body) →
      s'.names.locals = locals ∧ ∀ m ∈ ms, AllScriptStmts (Known locals) m.body := by
  fun_induction compileProgram program with
  | case1 =>
      intro s ms s' hs hy _
      obtain ⟨rfl, rfl⟩ := yields_pure.1 hy
      exact ⟨hs, by simp⟩
  | case2 _ f rest ih =>
      intro s ms s' hs hy hn
      obtain ⟨m, t, hm, hy⟩ := yields_bind.1 hy
      obtain ⟨ms', t', hms, hy⟩ := yields_bind.1 hy
      obtain ⟨rfl, rfl⟩ := yields_pure.1 hy
      obtain ⟨hnm, hnms⟩ := List.forall_mem_cons.1 hn
      obtain ⟨h₁, hf⟩ := refersUnless_compileFunction f s m t hs hm hnm
      obtain ⟨h₂, hr⟩ := ih t ms' s' h₁ hms hnms
      exact ⟨h₂, List.forall_mem_cons.2 ⟨hf, hr⟩⟩
  | case3 _ rest ih => exact ih
  | case4 st rest =>
      intro s ms s' _ hy
      exact absurd hy yields_refuse

end TwinView.Script
