import TwinView.Proofs.Code.Closed
import TwinView.Proofs.Script.Leaves
import TwinView.Proofs.Script.Soundness

/-!
Scripts that declare nothing. A declaration is spelled with the keyword `var`, so that a source without
it has none; compiling it leaves the locals as they are, also if it is refused on the way.
-/

namespace TwinView.Script

variable {α β : Type}

def hasVar (source : String) : Bool :=
  match tokenize source with
  | .ok ts => ts.any (·.lexeme = .keyword "var")
  | .error _ => false

mutual

/-- Whether a statement declares a name, or has a statement inside it that does. -/
def Stmt.declares : Stmt → Bool
  | .var _ _ => true
  | .block _ body => Stmt.someDeclares body
  | .loop _ (some (.var _ _)) _ _ _ => true
  | .loop _ _ _ _ body => body.declares
  | .function _ ⟨_, _, body, _⟩ => Stmt.someDeclares body
  | .expr _ _ | .ret _ _ | .empty _ => false

def Stmt.someDeclares : List Stmt → Bool
  | [] => false
  | st :: rest => st.declares || Stmt.someDeclares rest

end

variable {Separate : List Token → Prop}

def HasVar (ts : List Token) : Prop := ∃ t ∈ ts, t.lexeme = .keyword "var"

theorem HasVar.mono {ts us : List Token} (h : HasVar ts) (hs : ts ⊆ us) : HasVar us := by
  obtain ⟨t, ht, hv⟩ := h
  exact ⟨t, hs ht, hv⟩

mutual

theorem hasVar_of_declares : ∀ (st : Stmt) {ts rest : List Token},
    WrittenStmt Separate st ts rest → st.declares → HasVar ts
  | .var i _, _, _, h, _ => by
      cases h with
      | @var _ j => exact ⟨⟨i, j, .keyword "var"⟩, by simp, rfl⟩
  | .block _ body, _, _, h, hd => by
      cases h with
      | block hb =>
          refine (hasVar_of_someDeclares body hb hd).mono ?_
          intro t ht
          simp [ht]
  | .loop _ init _ _ body, _, _, h, hd => by
      cases h with
      | loop hi _ _ hb =>
          cases hi with
          | @var i j => exact ⟨⟨i, j, .keyword "var"⟩, by simp, rfl⟩
          | none | expr =>
              refine (hasVar_of_declares body hb hd).mono ?_
              intro t ht
              simp [ht]
  | .function _ ⟨_, _, body, _⟩, _, _, h, hd => by
      cases h with
      | function hf _ =>
          cases hf with
          | function _ _ hb =>
              refine (hasVar_of_someDeclares body hb hd).mono ?_
              intro t ht
              simp [ht]

theorem hasVar_of_someDeclares : ∀ (body : List Stmt) {ts rest : List Token},
    WrittenAll Separate body ts rest → Stmt.someDeclares body → HasVar ts
  | st :: body, _, _, h, hd => by
      cases h with
      | cons hs hb =>
          rcases Bool.or_eq_true_iff.1 hd with hd | hd
          · exact (hasVar_of_declares st hs hd).mono (List.subset_append_left _ _)
          · exact (hasVar_of_someDeclares body hb hd).mono (List.subset_append_right _ _)

end

theorem not_someDeclares {source : String} {program : List Stmt} (hv : hasVar source = false)
    (h : parse source = .ok program) : Stmt.someDeclares program = false := by
  obtain ⟨ts, hts, hw⟩ := exists_written h
  rw [Bool.eq_false_iff]
  intro hd
  obtain ⟨t, ht, hl⟩ := hasVar_of_someDeclares program hw hd
  have hany : ts.any (·.lexeme = .keyword "var") := List.any_eq_true.2 ⟨t, ht, by simpa using hl⟩
  simp [hasVar, hts, hany] at hv

def Scope.SameLocals (s t : Scope) : Prop := t.names.locals = s.names.locals

instance : IsPreorder Scope Scope.SameLocals where
  refl _ := rfl
  trans _ _ _ h h' := h'.trans h

def KeepsLocals (x : Compile α) : Prop := ∀ s, (x.run.run s).2.names.locals = s.names.locals

theorem keepsLocals_iff_moves {x : Compile α} : KeepsLocals x ↔ Moves Scope.SameLocals x := Iff.rfl

theorem KeepsLocals.pure (a : α) : KeepsLocals (pure a) := keepsLocals_iff_moves.2 (.pure a)

theorem KeepsLocals.bind {x : Compile α} {f : α → Compile β} (hx : KeepsLocals x)
    (hf : ∀ a, KeepsLocals (f a)) : KeepsLocals (x >>= f) := keepsLocals_iff_moves.2 (.bind hx hf)

theorem keepsLocals_noteExtra (name : String) (usage : Usage) :
    KeepsLocals (noteExtra name usage) := by
  intro s
  show (if usage = .assign then _ else _ : Scope).names.locals = _
  split <;> rfl

/-- A name that is not declared is renamed only if it is a local already. -/
theorem keepsLocals_compileName {usage : Usage} (hu : usage ≠ .declare) (name : String) :
    KeepsLocals (compileName usage name) := by
  refine keepsLocals_iff_moves.2 (moves_compileName (keepsLocals_noteExtra name usage) fun s h => ?_)
  have hsome : (s.names.locals.lookup name).isSome := h.resolve_left hu
  obtain ⟨given, hgiven⟩ := Option.isSome_iff_exists.1 hsome
  show (s.names.rename name).2.locals = _
  simp [Code.Names.rename, hgiven]

theorem usedMove_sameLocals : UsedMove Scope.SameLocals := fun _ name hu =>
  keepsLocals_compileName hu name

theorem keepsLocals_compileExpr (e : Expr) : KeepsLocals (compileExpr e) :=
  moves_compileExpr usedMove_sameLocals e

theorem keepsLocals_compileOption (e : Option Expr) : KeepsLocals (compileOption e) :=
  moves_compileOption usedMove_sameLocals e

theorem keepsLocals_compileTest (e : Option Expr) : KeepsLocals (compileTest e) :=
  moves_compileTest usedMove_sameLocals e

def headDeclares : Option Stmt → Bool
  | some (.var _ _) => true
  | _ => false

theorem declares_loop (i : Nat) (init : Option Stmt) (test update : Option Expr) (body : Stmt) :
    Stmt.declares (.loop i init test update body) = (headDeclares init || body.declares) := by
  cases init with
  | none => simp [Stmt.declares, headDeclares]
  | some st => cases st <;> simp [Stmt.declares, headDeclares]

mutual

theorem locals_of_not_declares : ∀ st : Stmt, st.declares = false → st.locals = []
  | .expr _ _, _ | .ret _ _, _ | .empty _, _ => rfl
  | .block _ body, h => allLocals_of_not_declares body h
  | .loop _ init test update body, h => by
      rw [declares_loop, Bool.or_eq_false_iff] at h
      have hhead : headNames init = [] := by
        unfold headNames
        split
        · cases h.1
        · rfl
      simp [Stmt.locals, hhead, locals_of_not_declares body h.2]
  | .function _ ⟨_, _, body, _⟩, h => allLocals_of_not_declares body h

theorem allLocals_of_not_declares :
    ∀ body : List Stmt, Stmt.someDeclares body = false → Stmt.allLocals body = []
  | [], _ => rfl
  | st :: rest, h => by
      obtain ⟨hst, hrest⟩ := Bool.or_eq_false_iff.1 h
      simp [Stmt.allLocals, locals_of_not_declares st hst, allLocals_of_not_declares rest hrest]

end

theorem keepsLocals_newName (stem : String) : KeepsLocals (newName stem) := fun _ => rfl

theorem keepsLocals_compileProgram (program : List Stmt) (h : Stmt.someDeclares program = false) :
    KeepsLocals (compileProgram program) := by
  refine moves_compileProgram usedMove_sameLocals (keepsLocals_newName _) program ?_
  simp [allLocals_of_not_declares program h]

theorem noDecls_nil : NoDecls [] := by simp [NoDecls, Code.Stmt.allOf]

theorem NoDecls.append {a b : List Code.Stmt} (ha : NoDecls a) (hb : NoDecls b) : NoDecls (a ++ b) :=
  Code.Stmt.forall_allOf_append.2 ⟨ha, hb⟩

theorem noDecls_expr (e : Code.Expr) (origin : Code.Origin) : NoDecls [.expr e origin] :=
  Code.Stmt.forall_allOf_expr.2 id

theorem noDecls_ret (value : Option Code.Expr) : NoDecls [.ret value] :=
  Code.Stmt.forall_allOf_ret.2 id

theorem NoDecls.loop {init : Option Code.Stmt} {test : Code.Expr} {step : Option Code.Expr}
    {body : List Code.Stmt} (hi : NoDecls init.toList) (hb : NoDecls body) :
    NoDecls [.loop init test (step.map fun e => .expr e) body] :=
  Code.Stmt.forall_allOf_loop.2 ⟨id, hi, Code.Stmt.forall_allOf_step.2 fun _ _ => id, hb⟩

theorem noDecls_head {P : Expr → Code.Expr → Prop} {init : Option Stmt} {head : Option Code.Stmt}
    (h : HeadCode P init head) (hd : headDeclares init = false) : NoDecls head.toList := by
  cases h with
  | expr => exact noDecls_expr _ _
  | var => cases hd
  | none => exact noDecls_nil

theorem carries_noDecls : CarriesStmts (fun _ _ => True) (fun st code => st.declares = false → NoDecls code)
    fun body code => Stmt.someDeclares body = false → NoDecls code where
  expr _ _ _ := noDecls_expr _ _
  var _ _ hd := by cases hd
  retNone _ _ := noDecls_ret _
  retSome _ _ _ := noDecls_ret _
  block _ h := h
  loop _ _ hi _ _ hb hd := by
    rw [declares_loop, Bool.or_eq_false_iff] at hd
    exact (noDecls_head hi hd.1).loop (hb hd.2)
  empty _ _ := noDecls_nil
  nil _ := noDecls_nil
  cons h hr hd := by
    obtain ⟨hst, hrest⟩ := Bool.or_eq_false_iff.1 hd
    exact (h hst).append (hr hrest)

theorem compileProgram_noDecls (program : List Stmt) (hd : Stmt.someDeclares program = false) :
    Gives (compileProgram program) fun ms => ∀ m ∈ ms, NoDecls m.body := by
  refine (carries_noDecls.gives_compileProgram (fun _ => .trivial) program).mono fun ms h => ?_
  induction h with
  | nil => simp
  | function _ hm _ ih =>
      obtain ⟨hf, hrest⟩ := Bool.or_eq_false_iff.1 hd
      refine List.forall_mem_cons.2 ⟨?_, ih hrest⟩
      obtain ⟨code, hcode, hbody | hbody⟩ := hm.body
      · rw [hbody]
        exact hcode hf
      · rw [hbody]
        exact (hcode hf).append (noDecls_ret _)
  | empty _ _ ih => exact ih hd

variable {n : Code.Names} {source : String}

theorem locals_compile (hv : hasVar source = false) : (compile n source).2.locals = n.locals := by
  unfold compile
  cases hp : parse source with
  | error r => rfl
  | ok program =>
      have h := keepsLocals_compileProgram program (not_someDeclares hv hp) { names := n }
      dsimp only
      generalize (compileProgram program).run.run { names := n } = r at h ⊢
      obtain ⟨r, t⟩ := r
      cases r <;> exact h

/-- Where no locals are known, its methods know what is bound and declare nothing. -/
theorem allScriptStmts_compile (hv : hasVar source = false) (hn : n.locals = []) {t : Compiled}
    (h : (compile n source).1 = .ok t) : ∀ m ∈ t.methods, AllScriptStmts (Known []) m.body := by
  obtain ⟨program, s, hp, hy, -⟩ := yields_of_compile h
  have hdecls := compileProgram_noDecls program (not_someDeclares hv hp) _ _ _ hy
  exact (compileProgram_refers program _ _ _ hn hy hdecls).2

section Resolved

variable {bound : String → Prop} {known : Code.Ref → Prop}

theorem not_isGenerated_scriptMethods {method : String} (h : method ∈ Code.Expr.scriptMethods) :
    Code.isGenerated method = false ∧ method ≠ "addPart" := by
  have hall : Code.Expr.scriptMethods.all fun m => !Code.isGenerated m && m ≠ "addPart" := by decide
  simpa using List.all_eq_true.1 hall method h

theorem resolved_of_isScriptCode (hk : ∀ name, bound name → known (.var name)) {e : Code.Expr}
    (h : e.IsScriptCode bound) : e.Resolved known := by
  refine Code.Expr.Every.mono ?_ h
  intro x hx r hr
  cases x with
  | var name =>
      rw [List.mem_singleton.1 hr]
      exact hk name hx
  | field | create => exact absurd hx id
  | invoke result target method args p =>
      obtain ⟨hg, ha⟩ := not_isGenerated_scriptMethods hx
      cases target with
      | this => simp [Code.Expr.refs, hg, ha] at hr
      | _ => cases hr
  | _ => cases hr

mutual

theorem resolved_of_isScriptStmt {known : Code.Ref → Prop}
    (hk : ∀ name, bound name → known (.var name)) :
    ∀ {st : Code.Stmt}, (∀ inner ∈ st.withInner, IsScriptStmt bound inner) → st.Resolved known
  | .expr _ _, h => resolved_of_isScriptCode hk (h _ List.mem_cons_self)
  | .var _, h | .vars _, h => absurd (h _ List.mem_cons_self) id
  | .cond _ _ _, h =>
      ⟨resolved_of_isScriptCode hk (h _ List.mem_cons_self),
        resolved_of_allScriptStmts hk fun st hst =>
          h st (List.mem_cons_of_mem _ (List.mem_append_left _ hst)),
        resolved_of_allScriptStmts hk fun st hst =>
          h st (List.mem_cons_of_mem _ (List.mem_append_right _ hst))⟩
  | .loop init _ _ _, h => by
      have hk' : ∀ name, bound name → Code.behind known init.toList (.var name) :=
        fun name hn => Or.inl (hk name hn)
      refine ⟨?_, resolved_of_isScriptCode hk' (h _ List.mem_cons_self), ?_, ?_⟩
      · exact resolved_of_isScriptOption hk fun st hst => h st (List.mem_cons_of_mem _
          (List.mem_append_left _ (List.mem_append_left _ hst)))
      · exact resolved_of_isScriptOption hk' fun st hst => h st (List.mem_cons_of_mem _
          (List.mem_append_left _ (List.mem_append_right _ hst)))
      · exact resolved_of_allScriptStmts hk' fun st hst =>
          h st (List.mem_cons_of_mem _ (List.mem_append_right _ hst))
  | .ret _, h => fun e he => resolved_of_isScriptCode hk (h _ List.mem_cons_self e he)
  | .comment _, _ => True.intro

theorem resolved_of_isScriptOption {known : Code.Ref → Prop}
    (hk : ∀ name, bound name → known (.var name)) : ∀ {st : Option Code.Stmt},
    (∀ inner ∈ Code.Stmt.allOfOption st, IsScriptStmt bound inner) → Code.Stmt.OptionResolved known st
  | none, _ => True.intro
  | some _, h => resolved_of_isScriptStmt hk h

theorem resolved_of_allScriptStmts {known : Code.Ref → Prop}
    (hk : ∀ name, bound name → known (.var name)) :
    ∀ {body : List Code.Stmt}, AllScriptStmts bound body → Code.Stmt.AllResolved known body
  | [], _ => True.intro
  | _ :: _, h =>
      ⟨resolved_of_isScriptStmt hk fun st hst => h st (List.mem_append_left _ hst),
        resolved_of_allScriptStmts (fun name hn => Or.inl (hk name hn)) fun st hst =>
          h st (List.mem_append_right _ hst)⟩

end

theorem allDeclared_of_allScriptStmts {body : List Code.Stmt} (h : AllScriptStmts bound body) :
    Code.Stmt.allDeclared body = [] := by
  refine List.flatMap_eq_nil_iff.2 fun st hst => ?_
  have hs := h st hst
  cases st with
  | var | vars => exact absurd hs id
  | _ => rfl

theorem mem_renderParams_of_known {name : String} (h : Known [] name) :
    ∃ p ∈ Code.renderParams, Code.Ref.var name = .var p.name := by
  have hbound : name ∈ CodeBlock.boundNames := by
    rcases h with h | ⟨key, h⟩
    · exact h
    · cases h
  have hnames : CodeBlock.boundNames ⊆ Code.renderParams.map (·.name) := by decide
  obtain ⟨p, hp, rfl⟩ := List.mem_map.1 (hnames hbound)
  exact ⟨p, hp, rfl⟩

/-- The methods of a source without the keyword refer to nothing but their parameters. -/
theorem closed_compile (hv : hasVar source = false) (hn : n.locals = []) {t : Compiled}
    (h : (compile n source).1 = .ok t) : ∀ m ∈ t.methods, m.Closed known := by
  intro m hm
  have hscript := allScriptStmts_compile hv hn h m hm
  have hparams := (compile_isCode h m hm).params
  refine ⟨resolved_of_allScriptStmts (fun name hname => Or.inr ?_) hscript, ?_⟩
  · rw [hparams]
    exact mem_renderParams_of_known hname
  · rw [hparams, allDeclared_of_allScriptStmts hscript]
    decide

end Resolved

end TwinView.Script
