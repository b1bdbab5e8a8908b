import TwinView.Proofs.Code.Renaming
import TwinView.Proofs.Script.Moves
import TwinView.Proofs.Script.Results

/-!
Compiling a script in different scopes. Two scopes with the same locals give the same code, up to the
numbers in its names; and a script that needs nothing from the environment gives that code also where
more locals are known.
-/

namespace TwinView.Script

open Code (Names)

variable {α β γ δ : Type} {strict : Prop}

/-- Nothing has been asked of the environment. -/
def Scope.Quiet (s : Scope) : Prop := s.reads = [] ∧ s.writes = false

def Scope.Before (s t : Scope) : Prop := s.names.Le t.names ∧ (t.Quiet → s.Quiet)

instance : IsPreorder Scope Scope.Before where
  refl s := ⟨.refl s.names, id⟩
  trans _ _ _ h h' := ⟨h.1.trans h'.1, h.2 ∘ h'.2⟩

/-- A compiler only takes names and only adds to what it needs. -/
def Steady (x : Compile α) : Prop :=
  ∀ s, s.names.Le (x.run.run s).2.names ∧ ((x.run.run s).2.Quiet → s.Quiet)

theorem steady_iff_moves {x : Compile α} : Steady x ↔ Moves Scope.Before x := Iff.rfl

theorem Steady.pure (a : α) : Steady (pure a) := steady_iff_moves.2 (.pure a)

theorem Steady.refuse (fault : ScriptFault) (i : Nat) : Steady (refuse fault i : Compile α) :=
  steady_iff_moves.2 (.refuse fault i)

theorem Steady.bind {x : Compile α} {f : α → Compile β} (hx : Steady x) (hf : ∀ a, Steady (f a)) :
    Steady (x >>= f) := steady_iff_moves.2 (.bind hx hf)

theorem Steady.le {x : Compile α} (h : Steady x) {s s' : Scope} {a : α} (hy : Yields x s a s') :
    s.names.Le s'.names := ((steady_iff_moves.1 h).of_yields hy).1

/-- The locals were renamed by numbers behind their own names. -/
def Renamed (n : Names) : Prop :=
  ∀ name given, n.locals.lookup name = some given → Code.unnumbered given = name ++ "_"

/-- Scopes that tell a script the same. If they need not agree strictly, the second may know more
locals. -/
structure Near (strict : Prop) (s t : Scope) : Prop where
  reads : s.reads = t.reads
  writes : s.writes = t.writes
  locals : ∀ name, s.names.isLocal name → t.names.isLocal name
  agree : strict → ∀ name, t.names.isLocal name → s.names.isLocal name
  left : Renamed s.names
  right : Renamed t.names

/-- Two outcomes that agree: the same refusal, or related results. -/
def Agrees (R : α → β → Prop) : Except Refusal α → Except Refusal β → Prop
  | .ok a, .ok b => R a b
  | .error e, .error e' => e = e'
  | _, _ => False

/-- Two compilers that do the same in scopes that tell the same, provided that the first asks nothing
of the environment if the scopes need not agree strictly. -/
def Sim (strict : Prop) (R : α → β → Prop) (x : Compile α) (y : Compile β) : Prop :=
  ∀ s t, Near strict s t → strict ∨ (x.run.run s).2.Quiet →
    Near strict (x.run.run s).2 (y.run.run t).2 ∧ Agrees R (x.run.run s).1 (y.run.run t).1

theorem Sim.pure {R : α → β → Prop} {a : α} {b : β} (h : R a b) : Sim strict R (pure a) (pure b) :=
  fun _ _ hn _ => ⟨hn, h⟩

theorem Sim.refuse {R : α → β → Prop} {fault : ScriptFault} {i : Nat} :
    Sim strict R (refuse fault i) (refuse fault i) := fun _ _ hn _ => ⟨hn, rfl⟩

theorem Sim.bind {R : α → β → Prop} {Q : γ → δ → Prop} {x : Compile α} {y : Compile β}
    {f : α → Compile γ} {g : β → Compile δ} (hx : Sim strict R x y) (hs : ∀ a, Steady (f a))
    (hf : ∀ a b, R a b → Sim strict Q (f a) (g b)) : Sim strict Q (x >>= f) (y >>= g) := by
  intro s t hn hq
  have h := hx s t hn
  rw [run_bind] at hq ⊢
  rw [run_bind]
  generalize x.run.run s = r at h hq ⊢
  generalize y.run.run t = r' at h ⊢
  obtain ⟨r, s'⟩ := r
  obtain ⟨r', t'⟩ := r'
  -- what asks nothing in the end has asked nothing before
  have hq' : strict ∨ s'.Quiet := by
    cases r with
    | error e => exact hq
    | ok a => exact hq.imp_right (hs a s').2
  obtain ⟨hn', ha⟩ := h hq'
  cases r with
  | error e =>
      cases r' with
      | error e' => exact ⟨hn', ha⟩
      | ok b => exact ha.elim
  | ok a =>
      cases r' with
      | error e' => exact ha.elim
      | ok b => exact hf a b ha s' t' hn' hq

/-! Names. -/

theorem steady_noteExtra (name : String) (usage : Usage) : Steady (noteExtra name usage) := by
  intro s
  refine ⟨?_, ?_⟩
  · show s.names.Le (if usage = .assign then _ else _ : Scope).names
    split <;> exact .refl s.names
  · show (if usage = .assign then _ else _ : Scope).Quiet → _
    split
    · rintro ⟨-, h⟩
      cases h
    · rintro ⟨hr, hw⟩
      refine ⟨?_, hw⟩
      dsimp only at hr
      split at hr
      · exact hr
      · simp at hr

theorem not_quiet_noteExtra (name : String) (usage : Usage) (s : Scope) :
    ¬ ((noteExtra name usage).run.run s).2.Quiet := by
  show ¬ (if usage = .assign then _ else _ : Scope).Quiet
  split
  · rintro ⟨-, h⟩
    cases h
  · rintro ⟨hr, -⟩
    dsimp only at hr
    split at hr
    · next h => simp [hr] at h
    · simp at hr

theorem steady_compileName (usage : Usage) (name : String) : Steady (compileName usage name) :=
  steady_iff_moves.2 <| moves_compileName (steady_noteExtra name usage)
    fun s _ => ⟨s.names.le_rename name, id⟩

theorem usedMove_before : UsedMove Scope.Before := fun usage name _ => steady_compileName usage name

abbrev SameCode (e e' : Code.Expr) : Prop := e.unnumber = e'.unnumber

theorem unnumbered_rename {n : Names} (h : Renamed n) (name : String) :
    Code.unnumbered (n.rename name).1 = name ++ "_" := by
  unfold Names.rename
  split
  · next given hg => exact h name given hg
  · exact Code.unnumbered_append ⟨name, rfl⟩ _

theorem renamed_rename {n : Names} (h : Renamed n) (name : String) : Renamed (n.rename name).2 := by
  have hgiven := unnumbered_rename h name
  unfold Names.rename at hgiven ⊢
  split
  · exact h
  · next hnone =>
      rw [hnone] at hgiven
      intro name' given hl
      by_cases hname : name' = name
      · subst hname
        obtain rfl : _ = given := by simpa using hl
        exact hgiven
      · have : (name' == name) = false := by simpa using hname
        exact h name' given (by simpa [List.lookup_cons, this, Names.fresh] using hl)

theorem sim_localName (name : String) :
    Sim strict SameCode (localName name) (localName name) := by
  intro s t hn _
  refine ⟨⟨hn.reads, hn.writes, ?_, ?_, renamed_rename hn.left name, renamed_rename hn.right name⟩, ?_⟩
  · intro name' h
    have h' : (name' == name || s.names.isLocal name') = true := by
      rw [← Names.isLocal_rename]
      exact h
    show (t.names.rename name).2.isLocal name' = true
    rw [Names.isLocal_rename]
    rw [Bool.or_eq_true] at h' ⊢
    exact h'.imp_right (hn.locals name')
  · intro hstrict name' h
    have h' : (name' == name || t.names.isLocal name') = true := by
      rw [← Names.isLocal_rename]
      exact h
    show (s.names.rename name).2.isLocal name' = true
    rw [Names.isLocal_rename]
    rw [Bool.or_eq_true] at h' ⊢
    exact h'.imp_right (hn.agree hstrict name')
  · show Code.Expr.var (Code.unnumbered (s.names.rename name).1) _ _ =
      Code.Expr.var (Code.unnumbered (t.names.rename name).1) _ _
    rw [unnumbered_rename hn.left, unnumbered_rename hn.right]

theorem sim_noteExtra (name : String) (usage : Usage) :
    Sim strict SameCode (noteExtra name usage) (noteExtra name usage) := by
  intro s t hn _
  refine ⟨?_, rfl⟩
  show Near strict (if usage = .assign then _ else _ : Scope) (if usage = .assign then _ else _ : Scope)
  split
  · exact ⟨hn.reads, rfl, hn.locals, hn.agree, hn.left, hn.right⟩
  · refine ⟨?_, hn.writes, hn.locals, hn.agree, hn.left, hn.right⟩
    dsimp only
    rw [hn.reads]

theorem sim_compileName (usage : Usage) (name : String) :
    Sim strict SameCode (compileName usage name) (compileName usage name) := by
  unfold compileName
  split
  · split
    iterate 3 exact .pure rfl
    exact sim_noteExtra _ _
  · split
    iterate 4 exact .pure rfl
    intro s t hn hq
    rw [run_get_bind] at hq ⊢
    rw [run_get_bind]
    by_cases hdecl : usage = .declare
    · simp only [hdecl, decide_true, Bool.true_or, if_true] at hq ⊢
      exact sim_localName name s t hn hq
    · simp only [hdecl, decide_false, Bool.false_or] at hq ⊢
      by_cases hs : s.names.isLocal name
      · rw [if_pos hs] at hq ⊢
        rw [if_pos (hn.locals name hs)]
        exact sim_localName name s t hn hq
      · rw [if_neg hs] at hq ⊢
        have hstrict : strict := hq.resolve_right (not_quiet_noteExtra name usage s)
        rw [if_neg fun ht => hs (hn.agree hstrict name ht)]
        exact sim_noteExtra name usage s t hn hq

/-! Expressions. -/

theorem steady_compileExpr (e : Expr) : Steady (compileExpr e) :=
  moves_compileExpr usedMove_before e

theorem steady_compileExprs (es : List Expr) : Steady (compileExprs es) :=
  moves_compileExprs usedMove_before es

theorem steady_compileProps (props : List (PropertyKey × Expr)) : Steady (compileProps props) :=
  moves_compileProps usedMove_before props

abbrev SameCodes (es es' : List Code.Expr) : Prop :=
  Code.Expr.unnumberAll es = Code.Expr.unnumberAll es'

theorem calledMethod?_unnumber (e : Code.Expr) :
    calledMethod? e.unnumber = (calledMethod? e).map fun called => (called.1.unnumber, called.2) := by
  cases e with
  | property target key p =>
      simp [Code.Expr.unnumber, calledMethod?, Function.comp_def]
  | _ => rfl

theorem methodCall?_unnumber (target : Code.Expr) (method : String) (args : List Code.Expr) :
    methodCall? target.unnumber method (Code.Expr.unnumberAll args) =
      (methodCall? target method args).map Code.Expr.unnumber := by
  have hname : Code.unnumbered "substring" = "substring" := by decide
  unfold methodCall?
  split
  · simp
  · simp [hname]
  · rcases args with _ | ⟨start, _ | ⟨length, rest⟩⟩
    · simp [hname]
    · simp [hname]
    · simp [hname, Code.Expr.unnumber_lowerBinary]
  · rfl

theorem typeTest?_unnumber (target : Code.Expr) (name : String) :
    typeTest? target.unnumber name = (typeTest? target name).map Code.Expr.unnumber := by
  have hclass : Code.unnumbered "getClass" = "getClass" := by decide
  have harray : Code.unnumbered "isArray" = "isArray" := by decide
  have hdate : Code.unnumbered "isDate" = "isDate" := by decide
  unfold typeTest?
  dsimp only
  split <;> simp [hclass, harray, hdate, Code.Expr.null, Code.Expr.bool]

/-- Two results that may be missing, of which a refusal tells nothing but that. -/
theorem sim_option {fault : ScriptFault} {i : Nat} (r r' : Option Code.Expr) :
    r.map Code.Expr.unnumber = r'.map Code.Expr.unnumber →
    Sim strict SameCode
      (match r with
        | some e => pure e
        | none => refuse fault i)
      (match r' with
        | some e => pure e
        | none => refuse fault i) := by
  intro h
  cases r with
  | none =>
      cases r' with
      | none => exact .refuse
      | some e => simp at h
  | some e =>
      cases r' with
      | none => simp at h
      | some e' => exact .pure (by simpa using h)

mutual

/-- An expression in two scopes that tell the same, by induction on the syntax. -/
theorem sim_compileExpr : ∀ e : Expr, Sim strict SameCode (compileExpr e) (compileExpr e)
  | .name _ _ => sim_compileName _ _
  | .number _ _ | .text _ _ | .bool _ _ | .null _ => .pure rfl
  | .this _ | .comma _ _ | .function _ _ => .refuse
  | .parens _ inner => (sim_compileExpr inner).bind (fun _ => .pure _) fun _ _ h =>
      .pure (by simp_all [SameCode])
  | .member _ target _ => (sim_compileExpr target).bind (fun _ => .pure _) fun _ _ h =>
      .pure (by simp_all [SameCode])
  | .index _ target key => by
      refine (sim_compileExpr target).bind
        (fun _ => (steady_compileExpr key).bind fun _ => .pure _) fun e e' h => ?_
      refine (sim_compileExpr key).bind (fun _ => .pure _) fun k k' hk => .pure ?_
      simp_all [SameCode]
  | .call _ target args => by
      unfold compileExpr
      refine (sim_compileExpr target).bind (fun callee => ?_) fun callee callee' hc => ?_
      · split
        · exact .refuse _ _
        · refine (steady_compileExprs args).bind fun _ => ?_
          split
          · exact .pure _
          · exact .refuse _ _
      · have hm : (calledMethod? callee).map (fun c => (c.1.unnumber, c.2)) =
            (calledMethod? callee').map fun c => (c.1.unnumber, c.2) := by
          rw [← calledMethod?_unnumber, ← calledMethod?_unnumber, hc]
        cases h : calledMethod? callee with
        | none =>
            cases h' : calledMethod? callee' with
            | none => exact .refuse
            | some c => simp [h, h'] at hm
        | some c =>
            cases h' : calledMethod? callee' with
            | none => simp [h, h'] at hm
            | some c' =>
                obtain ⟨object, method⟩ := c
                obtain ⟨object', method'⟩ := c'
                simp only [h, h', Option.map_some, Option.some.injEq, Prod.mk.injEq] at hm
                obtain ⟨ho, rfl⟩ := hm
                refine (sim_compileExprs args).bind (fun as => ?_) fun as as' ha => sim_option _ _ ?_
                · split
                  · exact .pure _
                  · exact .refuse _ _
                · rw [← methodCall?_unnumber, ← methodCall?_unnumber, ho, ha]
  | .new i target args => by
      obtain ⟨-, -, ⟨arg, x, -, -, ⟨size, h⟩ | h⟩ | h⟩ | h := compileExpr_new i target args
      · rw [h]
        exact .pure rfl
      · rw [h]
        exact .refuse
      · rw [h]
        exact (sim_compileExprs args).bind (fun _ => .pure _) fun _ _ hs =>
          .pure (by simp_all [SameCode, SameCodes, Code.Expr.unnumber])
      · rw [h]
        exact .refuse
  | .unary _ op operand => (sim_compileExpr operand).bind (fun _ => .pure _) fun _ _ h =>
      .pure (by simp_all [SameCode, Code.Expr.unnumber_lowerUnary])
  | .typeOf _ operand => (sim_compileExpr operand).bind (fun _ => .pure _) fun _ _ h =>
      .pure (by simp_all [SameCode])
  | .binary _ op left right => by
      have hs (l : Code.Expr) : Steady
          (compileExpr right >>= fun r => pure (Code.Expr.lowerBinary op l r)) :=
        (steady_compileExpr right).bind fun _ => .pure _
      have hrest (l l' : Code.Expr) (hl : SameCode l l') : Sim strict SameCode
          (compileExpr right >>= fun r => pure (Code.Expr.lowerBinary op l r))
          (compileExpr right >>= fun r => pure (Code.Expr.lowerBinary op l' r)) :=
        (sim_compileExpr right).bind (fun _ => .pure _) fun _ _ hr =>
          .pure (by simp_all [SameCode, Code.Expr.unnumber_lowerBinary])
      unfold compileExpr
      dsimp only
      split
      · exact (sim_compileName _ _).bind hs hrest
      · exact (sim_compileExpr _).bind hs hrest
  | .isIn _ key target => by
      refine (sim_compileExpr key).bind
        (fun _ => (steady_compileExpr target).bind fun _ => .pure _) fun k k' hk => ?_
      refine (sim_compileExpr target).bind (fun _ => .pure _) fun t t' ht => .pure ?_
      simp_all [SameCode]
  | .instanceOf _ target type => by
      unfold compileExpr
      refine (sim_compileExpr target).bind (fun _ => ?_) fun t t' ht => ?_
      · split
        · split
          · exact .pure _
          · exact .refuse _ _
        · exact .refuse _ _
      · split
        · refine sim_option _ _ ?_
          rw [← typeTest?_unnumber, ← typeTest?_unnumber, ht]
        · exact .refuse
  | .cond _ test yes no => by
      refine (sim_compileExpr test).bind (fun _ => (steady_compileExpr yes).bind fun _ =>
        (steady_compileExpr no).bind fun _ => .pure _) fun t t' ht => ?_
      refine (sim_compileExpr yes).bind
        (fun _ => (steady_compileExpr no).bind fun _ => .pure _) fun y y' hy => ?_
      refine (sim_compileExpr no).bind (fun _ => .pure _) fun n n' hn => .pure ?_
      simp_all [SameCode, Code.Expr.unnumber_lowerTernary]
  | .object _ props => (sim_compileProps props).bind (fun _ => .pure _) fun _ _ h =>
      .pure (by simp_all [SameCode, SameCodes])
  | .array _ items => (sim_compileExprs items).bind (fun _ => .pure _) fun _ _ h =>
      .pure (by simp_all [SameCode, SameCodes, Code.Expr.unnumber])

theorem sim_compileExprs :
    ∀ es : List Expr, Sim strict SameCodes (compileExprs es) (compileExprs es)
  | [] => .pure rfl
  | e :: rest => by
      refine (sim_compileExpr e).bind
        (fun _ => (steady_compileExprs rest).bind fun _ => .pure _) fun a a' ha => ?_
      refine (sim_compileExprs rest).bind (fun _ => .pure _) fun as as' has => .pure ?_
      simp_all [SameCode, SameCodes]

theorem sim_compileProps :
    ∀ props : List (PropertyKey × Expr), Sim strict SameCodes (compileProps props) (compileProps props)
  | [] => .pure rfl
  | (key, value) :: rest => by
      refine (sim_compileExpr value).bind
        (fun _ => (steady_compileProps rest).bind fun _ => .pure _) fun a a' ha => ?_
      refine (sim_compileProps rest).bind (fun _ => .pure _) fun as as' has => .pure ?_
      simp_all [SameCode, SameCodes]

end

/-! Statements. -/

theorem steady_compileOption (e : Option Expr) : Steady (compileOption e) :=
  moves_compileOption usedMove_before e

theorem sim_compileOption (e : Option Expr) :
    Sim strict (fun r r' => r.map Code.Expr.unnumber = r'.map Code.Expr.unnumber)
      (compileOption e) (compileOption e) := by
  cases e with
  | none => exact .pure rfl
  | some e => exact (sim_compileExpr e).bind (fun _ => .pure _) fun _ _ h => .pure (congrArg some h)

theorem sim_compileDecl (d : Decl) :
    Sim strict (fun r r' => r.unnumber = r'.unnumber) (compileDecl d) (compileDecl d) := by
  refine (sim_compileName _ _).bind (fun r => ?_) fun r r' h => ?_
  · split
    · exact (steady_compileOption d.init).bind fun _ => .pure _
    · exact .refuse _ _
  · cases r with
    | var name type p =>
        cases r' with
        | var name' type' p' =>
            simp only [SameCode, Code.Expr.unnumber, Code.Expr.var.injEq] at h
            obtain ⟨hname, rfl, -⟩ := h
            refine (sim_compileOption d.init).bind (fun _ => .pure _) fun i i' hi => .pure ?_
            simp [Code.VarDecl.unnumber, hname, hi]
        | _ => cases h
    | _ =>
        cases r' with
        | var name' type' p' => cases h
        | _ => exact .refuse

theorem steady_compileDecls (ds : List Decl) : Steady (compileDecls ds) :=
  moves_compileDecls usedMove_before ds fun name _ => steady_compileName .declare name

theorem sim_compileDecls (ds : List Decl) :
    Sim strict (fun r r' => r.map Code.VarDecl.unnumber = r'.map Code.VarDecl.unnumber)
      (compileDecls ds) (compileDecls ds) := by
  induction ds with
  | nil => exact .pure rfl
  | cons d rest ih =>
      refine (sim_compileDecl d).bind
        (fun _ => (steady_compileDecls rest).bind fun _ => .pure _) fun _ _ h => ?_
      exact ih.bind (fun _ => .pure _) fun _ _ hs => .pure (by simp [h, hs])

theorem unnumber_declStmt (ds : List Code.VarDecl) :
    (declStmt ds).unnumber = declStmt (ds.map Code.VarDecl.unnumber) := by
  match ds with
  | [] => rfl
  | [_] => rfl
  | _ :: _ :: _ => rfl

theorem sim_compileHead (init : Option Stmt) :
    Sim strict (fun r r' => Code.Stmt.unnumberOption r = Code.Stmt.unnumberOption r')
      (compileHead init) (compileHead init) := by
  unfold compileHead
  split
  · refine (sim_compileExpr _).bind (fun _ => .pure _) fun e e' h => .pure ?_
    rw [SameCode] at h
    simp [Code.Stmt.unnumberOption, Code.Stmt.unnumber, h]
  · refine (sim_compileDecls _).bind (fun _ => .pure _) fun ds ds' h => .pure ?_
    simp [Code.Stmt.unnumberOption, unnumber_declStmt, h]
  · exact .pure rfl

abbrev SameStmts (ss ss' : List Code.Stmt) : Prop :=
  Code.Stmt.unnumberAll ss = Code.Stmt.unnumberAll ss'

theorem steady_compileTest (e : Option Expr) : Steady (compileTest e) :=
  moves_compileTest usedMove_before e

theorem sim_compileTest (e : Option Expr) :
    Sim strict SameCode (compileTest e) (compileTest e) := by
  cases e with
  | none => exact .pure rfl
  | some e => exact sim_compileExpr e

theorem steady_compileStmts (body : List Stmt) : Steady (compileStmts body) :=
  moves_compileStmts usedMove_before body fun name _ => steady_compileName .declare name

theorem unnumberOption_step {step step' : Option Code.Expr}
    (h : step.map Code.Expr.unnumber = step'.map Code.Expr.unnumber) :
    Code.Stmt.unnumberOption (step.map fun e => .expr e) =
      Code.Stmt.unnumberOption (step'.map fun e => .expr e) := by
  cases step <;> cases step' <;> simp_all [Code.Stmt.unnumberOption, Code.Stmt.unnumber]

mutual

theorem sim_compileStmt : ∀ s : Stmt, Sim strict SameStmts (compileStmt s) (compileStmt s)
  | .expr _ e => (sim_compileExpr e).bind (fun _ => .pure _) fun _ _ h =>
      .pure (congrArg (fun e => [Code.Stmt.expr e]) h)
  | .var _ decls => (sim_compileDecls decls).bind (fun _ => .pure _) fun _ _ h =>
      .pure (by simp [SameStmts, Code.Stmt.unnumberAll, unnumber_declStmt, h])
  | .ret _ none => .pure rfl
  | .ret _ (some e) => (sim_compileExpr e).bind (fun _ => .pure _) fun _ _ h =>
      .pure (congrArg (fun e => [Code.Stmt.ret (some e)]) h)
  | .block _ body => sim_compileStmts body
  | .loop _ init test update body => by
      have hbody (head : Option Code.Stmt) (test : Code.Expr) (step : Option Code.Expr) : Steady (
          match body with
          | .block _ stmts => do return [Code.Stmt.loop head test (step.map .expr) (← compileStmts stmts)]
          | body => refuse .loopBody body.start) := by
        split
        · exact (steady_compileStmts _).bind fun _ => .pure _
        · exact .refuse _ _
      unfold compileStmt
      refine (sim_compileHead init).bind (fun head => (steady_compileTest test).bind fun test =>
        (steady_compileOption update).bind fun step => hbody head test step) fun head head' hh => ?_
      refine (sim_compileTest test).bind (fun test =>
        (steady_compileOption update).bind fun step => hbody head test step) fun test test' ht => ?_
      refine (sim_compileOption update).bind (hbody head test) fun step step' hstep => ?_
      split
      · next stmts =>
          refine (sim_compileStmts stmts).bind (fun _ => .pure _) fun b b' hb => .pure ?_
          rw [SameCode] at ht
          rw [SameStmts] at hb ⊢
          simp [Code.Stmt.unnumberAll, Code.Stmt.unnumber, hh, ht, hb, unnumberOption_step hstep]
      · exact .refuse
  | .function _ _ => .refuse
  | .empty _ => .pure rfl

theorem sim_compileStmts :
    ∀ body : List Stmt, Sim strict SameStmts (compileStmts body) (compileStmts body)
  | [] => .pure rfl
  | s :: rest => by
      refine (sim_compileStmt s).bind
        (fun _ => (steady_compileStmts rest).bind fun _ => .pure _) fun a a' ha => ?_
      refine (sim_compileStmts rest).bind (fun _ => .pure _) fun b b' hb => .pure ?_
      rw [SameStmts] at ha hb ⊢
      simp [Code.Stmt.unnumberAll_append, ha, hb]

end

/-! Programs. -/

theorem endsInReturn_unnumberAll (body : List Code.Stmt) :
    endsInReturn (Code.Stmt.unnumberAll body) = endsInReturn body := by
  rw [Code.Stmt.unnumberAll_eq_map]
  unfold endsInReturn
  rw [List.getLast?_map]
  cases body.getLast? with
  | none => rfl
  | some s => cases s <;> rfl

theorem isStem_code : Code.IsStem "code_" := ⟨"code", rfl⟩

theorem steady_newName (stem : String) : Steady (newName stem) :=
  fun s => ⟨s.names.le_fresh stem, id⟩

theorem sim_newName {stem : String} (h : Code.IsStem stem) :
    Sim strict (fun name name' => Code.unnumbered name = Code.unnumbered name')
      (newName stem) (newName stem) := by
  intro s t hn _
  refine ⟨⟨hn.reads, hn.writes, hn.locals, hn.agree, hn.left, hn.right⟩, ?_⟩
  show Code.unnumbered (s.names.fresh stem).1 = Code.unnumbered (t.names.fresh stem).1
  rw [Names.fresh_name, Names.fresh_name, Code.unnumbered_append h, Code.unnumbered_append h]

abbrev SameMethods (ms ms' : List Code.Method) : Prop :=
  ms.map Code.Method.unnumber = ms'.map Code.Method.unnumber

theorem sim_compileFunction (f : Function) :
    Sim strict (fun m m' => m.unnumber = m'.unnumber) (compileFunction f) (compileFunction f) := by
  refine (sim_newName isStem_code).bind
    (fun _ => (steady_compileStmts f.body).bind fun _ => .pure _) fun name name' hname => ?_
  refine (sim_compileStmts f.body).bind (fun _ => .pure _) fun body body' h => .pure ?_
  rw [SameStmts] at h
  have hends : endsInReturn body = endsInReturn body' := by
    rw [← endsInReturn_unnumberAll, h, endsInReturn_unnumberAll]
  simp only [Code.Method.unnumber, hname, hends]
  split
  · rw [h]
  · rw [Code.Stmt.unnumberAll_append, Code.Stmt.unnumberAll_append, h]

theorem steady_compileProgram (program : List Stmt) : Steady (compileProgram program) :=
  moves_compileProgram usedMove_before (steady_newName _) program fun name _ =>
    steady_compileName .declare name

theorem sim_compileProgram (program : List Stmt) :
    Sim strict SameMethods (compileProgram program) (compileProgram program) := by
  fun_induction compileProgram program with
  | case1 => exact .pure rfl
  | case2 _ f rest ih =>
      refine (sim_compileFunction f).bind
        (fun _ => (steady_compileProgram rest).bind fun _ => .pure _) fun m m' hm => ?_
      refine ih.bind (fun _ => .pure _) fun ms ms' hms => .pure ?_
      simp_all [SameMethods]
  | case3 _ rest ih => exact ih
  | case4 s rest => exact .refuse

/-- Two sets of names that know the same locals. -/
structure SameLocals (n n' : Names) : Prop where
  locals : ∀ name, n.isLocal name = n'.isLocal name
  left : Renamed n
  right : Renamed n'

/-- Two outcomes that say the same about a script. -/
def SameOutcome : Except Refusal Compiled → Except Refusal Compiled → Prop
  | .ok t, .ok t' => SameMethods t.methods t'.methods ∧ t.hasExtras = t'.hasExtras
  | .error e, .error e' => e = e'
  | _, _ => False

/-- Nothing but the locals that are known decides what becomes of a script. -/
theorem compile_sameOutcome {n n' : Names} (h : SameLocals n n') (source : String) :
    SameOutcome (compile n source).1 (compile n' source).1 ∧
      SameLocals (compile n source).2 (compile n' source).2 := by
  unfold compile
  split
  · exact ⟨rfl, h⟩
  · next program _ =>
      have hnear : Near True { names := n } { names := n' } :=
        ⟨rfl, rfl, fun name => by simp [h.locals], fun _ name => by simp [h.locals], h.left, h.right⟩
      obtain ⟨hn, ha⟩ := sim_compileProgram program _ _ hnear (Or.inl True.intro)
      generalize (compileProgram program).run.run { names := n } = r at hn ha
      generalize (compileProgram program).run.run { names := n' } = r' at hn ha
      obtain ⟨r, s⟩ := r
      obtain ⟨r', s'⟩ := r'
      have hlocals : SameLocals s.names s'.names :=
        ⟨fun name => Bool.eq_iff_iff.2 ⟨hn.locals name, hn.agree True.intro name⟩, hn.left, hn.right⟩
      cases r with
      | error e =>
          cases r' with
          | error e' => exact ⟨ha, hlocals⟩
          | ok ms => exact ha.elim
      | ok ms =>
          cases r' with
          | error e' => exact ha.elim
          | ok ms' =>
              refine ⟨⟨ha, ?_⟩, hlocals⟩
              simp [Compiled.hasExtras, show s.reads = s'.reads from hn.reads,
                show s.writes = s'.writes from hn.writes]

/-- A script that needs nothing from the environment on its own is the same script anywhere. -/
theorem compile_alone {n : Names} (hn : Renamed n) {source : String} {t : Compiled}
    (h : (compile {} source).1 = .ok t) (hq : t.hasExtras = false) :
    ∃ t', (compile n source).1 = .ok t' ∧ t'.hasExtras = false ∧ SameMethods t.methods t'.methods := by
  unfold compile at h ⊢
  split at h
  · cases h
  · next program _ =>
      have hnear : Near False { names := {} } { names := n } :=
        ⟨rfl, rfl, fun name h => absurd h (by simp [Names.isLocal]), fun h => h.elim,
          fun name given h => absurd h (by simp), hn⟩
      have hsim := sim_compileProgram program _ _ hnear
      generalize (compileProgram program).run.run { names := {} } = r at hsim h
      generalize (compileProgram program).run.run { names := n } = r' at hsim
      obtain ⟨r, s⟩ := r
      obtain ⟨r', s'⟩ := r'
      cases r with
      | error e => cases h
      | ok ms =>
          cases h
          have hquiet : s.Quiet := by
            simpa [Compiled.hasExtras, Scope.Quiet, and_comm] using hq
          obtain ⟨hn', ha⟩ := hsim (Or.inr hquiet)
          cases r' with
          | error e' => exact ha.elim
          | ok ms' =>
              refine ⟨_, rfl, ?_, ha⟩
              simpa [Compiled.hasExtras, show s.reads = s'.reads from hn'.reads,
                show s.writes = s'.writes from hn'.writes] using hq

/-- The methods of a script get new names of their own. -/
structure NewNames (n n' : Names) (names : List String) : Prop where
  distinct : names.Nodup
  taken : ∀ name ∈ names, n'.Taken name
  notTaken : ∀ name ∈ names, ¬ n.Taken name

theorem compileProgram_newNames (program : List Stmt) :
    ∀ s ms s', Yields (compileProgram program) s ms s' →
      NewNames s.names s'.names (ms.map (·.name)) := by
  fun_induction compileProgram program with
  | case1 =>
      intro s ms s' h
      obtain ⟨rfl, rfl⟩ := yields_pure.1 h
      exact ⟨.nil, by simp, by simp⟩
  | case2 _ f rest ih =>
      intro s ms s' h
      obtain ⟨m, t, hm, h⟩ := yields_bind.1 h
      obtain ⟨ms', _, hms, h⟩ := yields_bind.1 h
      obtain ⟨rfl, rfl⟩ := yields_pure.1 h
      obtain ⟨name, _, hname, hm⟩ := yields_bind.1 hm
      obtain ⟨body, _, hbody, hm⟩ := yields_bind.1 hm
      obtain ⟨rfl, rfl⟩ := yields_pure.1 hm
      cases hname
      have hrest := ih _ _ _ hms
      have hle : (s.names.fresh "code_").2.Le t.names := (steady_compileStmts f.body).le hbody
      have hle' : t.names.Le s'.names := (steady_compileProgram rest).le hms
      have htaken : t.names.Taken (s.names.fresh "code_").1 :=
        (Names.taken_fresh isStem_code).mono hle
      refine ⟨?_, ?_, ?_⟩
      · refine List.nodup_cons.2 ⟨?_, hrest.distinct⟩
        intro hmem
        exact hrest.notTaken _ hmem htaken
      · exact List.forall_mem_cons.2 ⟨htaken.mono hle', hrest.taken⟩
      · refine List.forall_mem_cons.2 ⟨Names.not_taken_fresh isStem_code, ?_⟩
        intro name hmem ht
        exact hrest.notTaken name hmem ((ht.mono (s.names.le_fresh _)).mono hle)
  | case3 _ rest ih => exact ih
  | case4 s rest =>
      intro s ms s' h
      exact absurd h yields_refuse

theorem gives_newName {stem : String} (h : Code.IsStem stem) :
    Gives (newName stem) fun name => Code.unnumbered name = stem := by
  intro s name s' hy
  cases hy
  exact Code.unnumbered_append h _

theorem compileProgram_unnumbered :
    ∀ program : List Stmt, Gives (compileProgram program) fun ms =>
      ∀ m ∈ ms, Code.unnumbered m.name = "code_"
  | [] => .pure (by simp)
  | .function _ f :: rest => by
      have hfunction : Gives (compileFunction f) fun m => Code.unnumbered m.name = "code_" :=
        (gives_newName isStem_code).bind fun _ hname => Gives.trivial.bind fun _ _ => .pure hname
      exact hfunction.bind fun _ hm => (compileProgram_unnumbered rest).bind fun _ hms =>
        .pure (List.forall_mem_cons.2 ⟨hm, hms⟩)
  | .empty _ :: rest => compileProgram_unnumbered rest
  | .expr _ _ :: _ | .var _ _ :: _ | .ret _ _ :: _ | .block _ _ :: _ | .loop _ _ _ _ _ :: _ => .refuse

theorem compile_newNames {n : Names} {source : String} {t : Compiled}
    (h : (compile n source).1 = .ok t) :
    NewNames n (compile n source).2 (t.methods.map (·.name)) := by
  obtain ⟨program, s, -, hy, hs, -⟩ := yields_of_compile h
  rw [← hs]
  exact compileProgram_newNames program _ _ _ hy

theorem le_compile (n : Names) (source : String) : n.Le (compile n source).2 := by
  unfold compile
  split
  · exact .refl n
  · next program _ =>
      have h := (steady_compileProgram program { names := n }).1
      generalize (compileProgram program).run.run { names := n } = r at h
      obtain ⟨r, s⟩ := r
      cases r <;> exact h

theorem renamed_compile {n : Names} (h : Renamed n) (source : String) :
    Renamed (compile n source).2 :=
  (compile_sameOutcome ⟨fun _ => rfl, h, h⟩ source).2.left

end TwinView.Script
