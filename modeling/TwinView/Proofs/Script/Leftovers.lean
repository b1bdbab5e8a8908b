import TwinView.Proofs.Script.Refusals
import TwinView.Proofs.Script.Undeclared

/-!
What a refused script leaves behind. The compiler takes declarations in the order in which they stand
in the source and blames a place that lies behind them; so the names that have become locals when it
stops are those declared in front of that place.
-/

namespace TwinView.Script

open Code (Names)

variable {α β : Type} {S : List Token → Prop} {ts us rest : List Token} {ds ds' : List Decl}

def headDecls : Option Stmt → List Decl
  | some (.var _ decls) => decls
  | _ => []

mutual

def Stmt.decls : Stmt → List Decl
  | .var _ decls => decls
  | .block _ body => Stmt.allDecls body
  | .loop _ init _ _ body => headDecls init ++ body.decls
  | .function _ ⟨_, _, body, _⟩ => Stmt.allDecls body
  | .expr _ _ | .ret _ _ | .empty _ => []

def Stmt.allDecls : List Stmt → List Decl
  | [] => []
  | st :: rest => st.decls ++ Stmt.allDecls rest

end

def sourceDecls (source : String) : List Decl :=
  match parse source with
  | .ok program => Stmt.allDecls program
  | .error _ => []

def AllStart (ts : List Token) (ds : List Decl) : Prop := ∀ d ∈ ds, HasStart ts d.start

theorem AllStart.nil : AllStart ts [] := by simp [AllStart]

theorem AllStart.mono (h : AllStart ts ds) (hs : ts ⊆ us) : AllStart us ds :=
  fun d hd => (h d hd).mono hs

theorem AllStart.append (h : AllStart ts ds) (h' : AllStart ts ds') : AllStart ts (ds ++ ds') :=
  fun d hd => (List.mem_append.1 hd).elim (h d) (h' d)

/-- A declaration is spelled by its name, and by its initial value behind it. -/
theorem WrittenDecl.inv {d : Decl} (h : WrittenDecl S d ts rest) :
    ∃ j mid us rest', ts = ⟨d.start, j, .name d.name⟩ :: (mid ++ us) ∧ WrittenOption S d.init us rest' := by
  cases h with
  | bare => exact ⟨_, [], [], rest, rfl, .none⟩
  | init h => exact ⟨_, [_], _, _, rfl, .some h⟩

theorem allStart_decls {loose : Bool} (h : Separated loose (WrittenDecl S) ds ts rest) :
    AllStart ts ds := by
  induction ds generalizing ts rest with
  | nil => exact .nil
  | cons d ds ih =>
      obtain ⟨us, gap, vs, _, _, rfl, hd, hds⟩ := h.split_first
      obtain ⟨_, _, _, _, rfl, -⟩ := hd.inv
      refine List.forall_mem_cons.2 ⟨⟨_, List.mem_cons_self, rfl⟩, (ih hds).mono fun t ht => ?_⟩
      simp [ht]

theorem allStart_head {init : Option Stmt} (h : WrittenInit S init ts rest) :
    AllStart ts (headDecls init) := by
  cases h with
  | none | expr => exact .nil
  | var h => exact (allStart_decls h).mono (List.subset_cons_self _ _)

mutual

theorem allStart_stmt : ∀ (st : Stmt) {ts rest : List Token}, WrittenStmt S st ts rest →
    AllStart ts st.decls
  | .expr _ _, _, _, _ | .ret _ _, _, _, _ | .empty _, _, _, _ => .nil
  | .var _ _, _, _, h => by
      cases h with
      | var h => exact (allStart_decls h).mono fun t ht => by simp [ht]
  | .block _ body, _, _, h => by
      cases h with
      | block h => exact (allStart_stmts body h).mono fun t ht => by simp [ht]
  | .loop _ init _ _ body, _, _, h => by
      cases h with
      | loop hi _ _ hb =>
          exact ((allStart_head hi).mono fun t ht => by simp [ht]).append
            ((allStart_stmt body hb).mono fun t ht => by simp [ht])
  | .function _ ⟨_, _, body, _⟩, _, _, h => by
      cases h with
      | function hf _ =>
          cases hf with
          | function _ _ hb => exact (allStart_stmts body hb).mono fun t ht => by simp [ht]

theorem allStart_stmts : ∀ (body : List Stmt) {ts rest : List Token}, WrittenAll S body ts rest →
    AllStart ts (Stmt.allDecls body)
  | [], _, _, _ => .nil
  | st :: body, _, _, h => by
      cases h with
      | cons hst hb =>
          exact ((allStart_stmt st hst).mono (List.subset_append_left _ _)).append
            ((allStart_stmts body hb).mono (List.subset_append_right _ _))

end

theorem WrittenStmt.startsAt {st : Stmt} (h : WrittenStmt S st ts rest) : StartsAt st.start ts := by
  cases h with
  | expr hi => exact hi.append _
  | var | retBare | ret | block | loop | empty => exact startsAt_cons _ _
  | function hf hi =>
      subst hi
      cases hf
      exact startsAt_cons _ _

def Passed (d : Decl) : Except Refusal α → Prop
  | .ok _ => True
  | .error r => d.start < r.index

/-- A compiler that works behind a declaration only has got past it. -/
theorem passed_of_refusesAt {x : Compile α} {d : Decl} (hx : RefusesAt us x)
    (h : ∀ u ∈ us, d.start < u.start) (s : Scope) : Passed d (x.run.run s).1 := by
  have hrefuses := hx s
  generalize (x.run.run s).1 = y at hrefuses ⊢
  cases y with
  | ok a => exact True.intro
  | error r =>
      obtain ⟨u, hu, hr⟩ := hrefuses r rfl
      have := h u hu
      show d.start < r.index
      omega

/-- The compiler makes locals of the declarations, up to the place at which it refuses, which is among
the tokens. The bound names do not become locals. -/
structure Leaves (ts : List Token) (ds : List Decl) (x : Compile α) : Prop where
  refuses : RefusesAt ts x
  locals : ∀ s name, (x.run.run s).2.names.isLocal name ↔
    s.names.isLocal name ∨
      ∃ d ∈ ds, Passed d (x.run.run s).1 ∧ d.name = name ∧ name ∉ CodeBlock.boundNames

namespace Leaves

theorem of_keepsLocals {x : Compile α} (hk : KeepsLocals x) (hr : RefusesAt ts x) :
    Leaves ts [] x where
  refuses := hr
  locals s name := by simp [Names.isLocal, hk s]

theorem pure (a : α) : Leaves ts [] (Pure.pure a) := of_keepsLocals (.pure a) (.pure a)

theorem mono {x : Compile α} (h : Leaves ts ds x) (hs : ts ⊆ us) : Leaves us ds x :=
  ⟨h.refuses.mono hs, h.locals⟩

/-- A compiler that refuses before anything else has not got past any declaration behind the place. -/
theorem refuse_first {fault : ScriptFault} {i : Nat} (hi : StartsAt i ts) (hord : InOrder ts)
    (hs : AllStart ts ds) : Leaves ts ds (Script.refuse fault i : Compile α) where
  refuses := .refuse hi.hasStart
  locals s name := by
    refine ⟨Or.inl, ?_⟩
    rintro (h | ⟨d, hd, hpassed, -⟩)
    · exact h
    · obtain ⟨t, us, rfl, rfl⟩ := hi
      obtain ⟨u, hu, hstart⟩ := hs d hd
      have hlt : d.start < t.start := hpassed
      rcases List.mem_cons.1 hu with rfl | hu
      · omega
      · have := (List.pairwise_cons.1 hord).1 u hu
        omega

/-- Two steps of which the second comes behind the first in the source too. -/
theorem bind {x : Compile α} {f : α → Compile β} (hx : Leaves ts ds x)
    (hf : ∀ a, Leaves us ds' (f a)) (hord : InOrder (ts ++ us)) (hs : AllStart ts ds)
    (hs' : AllStart us ds') : Leaves (ts ++ us) (ds ++ ds') (x >>= f) where
  refuses := (hx.refuses.mono (List.subset_append_left _ _)).bind fun a =>
    (hf a).refuses.mono (List.subset_append_right _ _)
  locals s name := by
    have hlt := (List.pairwise_append.1 hord).2.2
    have hrefuses := hx.refuses s
    have hfirst := hx.locals s name
    rw [run_bind]
    generalize x.run.run s = y at hrefuses hfirst ⊢
    obtain ⟨y, s'⟩ := y
    cases y with
    | error r =>
        -- no declaration of the second step stands in front of the refusal
        obtain ⟨t, ht, hr⟩ := hrefuses r rfl
        have hbehind : ∀ d ∈ ds', ¬ d.start < r.index := by
          intro d hd hpassed
          obtain ⟨u, hu, hstart⟩ := hs' d hd
          have := hlt t ht u hu
          omega
        refine hfirst.trans (or_congr_right ⟨?_, ?_⟩)
        · rintro ⟨d, hd, h⟩
          exact ⟨d, List.mem_append_left _ hd, h⟩
        · rintro ⟨d, hd, hpassed, h⟩
          rcases List.mem_append.1 hd with hd | hd
          · exact ⟨d, hd, hpassed, h⟩
          · exact absurd hpassed (hbehind d hd)
    | ok a =>
        have hrest := (hf a).locals s' name
        have hpassed : ∀ d ∈ ds, Passed d ((f a).run.run s').1 := by
          intro d hd
          obtain ⟨t, ht, hstart⟩ := hs d hd
          refine passed_of_refusesAt (hf a).refuses (fun u hu => ?_) s'
          rw [← hstart]
          exact hlt t ht u hu
        rw [hrest, hfirst, or_assoc]
        refine or_congr_right ⟨?_, ?_⟩
        · rintro (⟨d, hd, -, h⟩ | ⟨d, hd, h⟩)
          · exact ⟨d, List.mem_append_left _ hd, hpassed d hd, h⟩
          · exact ⟨d, List.mem_append_right _ hd, h⟩
        · rintro ⟨d, hd, h⟩
          rcases List.mem_append.1 hd with hd | hd
          · exact Or.inl ⟨d, hd, True.intro, h.2⟩
          · exact Or.inr ⟨d, hd, h⟩

theorem silent_bind {x : Compile α} {f : α → Compile β} (hx : Leaves ts [] x)
    (hf : ∀ a, Leaves us ds (f a)) (hord : InOrder (ts ++ us)) (hs : AllStart us ds) :
    Leaves (ts ++ us) ds (x >>= f) := hx.bind hf hord .nil hs

theorem map {x : Compile α} (hx : Leaves ts ds x) (f : α → β) :
    Leaves ts ds (x >>= fun a => Pure.pure (f a)) where
  refuses := hx.refuses.bind fun _ => .pure _
  locals s name := by
    have h := hx.locals s name
    rw [run_bind]
    generalize x.run.run s = y at h ⊢
    obtain ⟨y, s'⟩ := y
    cases y with
    | error r => exact h
    | ok a => exact h

end Leaves

/-- A name that may not be declared is no variable, a bound name stands for itself, and any other name
becomes a local. -/
theorem run_compileName_declare (name : String) (s : Scope) :
    (∃ e s', (compileName .declare name).run.run s = (.ok e, s') ∧
      s'.names.locals = s.names.locals ∧ ∀ given type p, e ≠ .var given type p) ∨
    (name ∈ CodeBlock.boundNames ∧ ∃ type, (compileName .declare name).run.run s =
      (.ok (.variableRef type name), s)) ∨
    (name ∉ CodeBlock.boundNames ∧ (compileName .declare name).run.run s =
      (.ok (.variableRef .object (s.names.rename name).1),
        { s with names := (s.names.rename name).2 })) := by
  unfold compileName
  split_ifs with hglobal
  · left
    split
    iterate 3 exact ⟨_, s, rfl, rfl, fun _ _ _ h => by cases h⟩
    exact ⟨_, _, rfl, rfl, fun _ _ _ h => by cases h⟩
  · split
    iterate 4 exact Or.inr (Or.inl ⟨by decide, _, rfl⟩)
    next hdata hindex hcount hkey =>
      refine Or.inr (Or.inr ⟨?_, ?_⟩)
      · simp only [CodeBlock.boundNames, List.mem_cons, List.not_mem_nil, or_false, not_or]
        exact ⟨hdata, hindex, hcount, hkey⟩
      · rfl

def initialized (type : Code.Ty) (name : String) (init : Option Expr) : Compile Code.VarDecl := do
  return { type, name, init := ← compileOption init }

theorem run_compileDecl {d : Decl} {type : Code.Ty} {given : String} {s s' : Scope}
    (h : (compileName .declare d.name).run.run s = (.ok (.variableRef type given), s')) :
    (compileDecl d).run.run s = (initialized type given d.init).run.run s' := by
  rw [compileDecl, run_bind, h]
  rfl

theorem leaves_compileDecl {d : Decl} (h : WrittenDecl S d ts rest) (hord : InOrder ts) :
    Leaves ts [d] (compileDecl d) := by
  obtain ⟨j, mid, us, _, rfl, hinit⟩ := h.inv
  have hkeeps (type : Code.Ty) (given : String) : KeepsLocals (initialized type given d.init) :=
    (keepsLocals_compileOption d.init).bind fun _ => .pure _
  have hrefuses (type : Code.Ty) (given : String) : RefusesAt us (initialized type given d.init) :=
    (refusesAt_compileOption hinit).bind fun _ => .pure _
  refine ⟨?_, fun s name => ?_⟩
  · refine (refusesAt_compileName _ _).bind fun e => ?_
    split
    · exact (hrefuses _ _).mono fun t ht => by simp [ht]
    · exact .refuse ⟨_, List.mem_cons_self, rfl⟩
  · rcases run_compileName_declare d.name s with ⟨e, s', hrun, hlocals, hne⟩ | ⟨hb, type, hrun⟩ |
      ⟨hb, hrun⟩
    · -- a name that may not be declared is refused where it stands
      have hdecl : (compileDecl d).run.run s = (.error ⟨.declaredName, d.start⟩, s') := by
        rw [compileDecl, run_bind, hrun]
        dsimp only
        split
        · exact absurd rfl (hne _ _ _)
        · rfl
      rw [hdecl, Names.isLocal, hlocals]
      simp [Passed, Names.isLocal]
    · rw [run_compileDecl hrun, Names.isLocal, hkeeps, ← Names.isLocal]
      refine ⟨Or.inl, ?_⟩
      rintro (h | ⟨d', hd', -, rfl, hname⟩)
      · exact h
      · rw [List.mem_singleton.1 hd'] at hname
        exact absurd hb hname
    · have hbehind : ∀ u ∈ us, d.start < u.start := fun u hu =>
        (List.pairwise_cons.1 hord).1 u (List.mem_append_right _ hu)
      rw [run_compileDecl hrun, Names.isLocal, hkeeps, ← Names.isLocal, Names.isLocal_rename,
        Bool.or_eq_true, beq_iff_eq, or_comm]
      refine or_congr_right ⟨?_, ?_⟩
      · rintro rfl
        exact ⟨d, List.mem_cons_self, passed_of_refusesAt (hrefuses _ _) hbehind _, rfl, hb⟩
      · rintro ⟨d', hd', -, hname, -⟩
        rw [← hname, List.mem_singleton.1 hd']

theorem leaves_compileDecls {loose : Bool} (h : Separated loose (WrittenDecl S) ds ts rest)
    (hord : InOrder ts) : Leaves ts ds (compileDecls ds) := by
  induction ds generalizing ts rest with
  | nil => exact .pure _
  | cons d ds ih =>
      have hstarts := allStart_decls h
      obtain ⟨us, gap, vs, _, _, rfl, hd, hds⟩ := h.split_first
      have hvs := List.pairwise_append.1 (List.pairwise_append.1 hord).2.1
      have hrest : Leaves (gap ++ vs) ds (compileDecls ds) :=
        (ih hds hvs.2.1).mono (List.subset_append_right _ _)
      have hrest' : AllStart (gap ++ vs) ds :=
        (allStart_decls hds).mono (List.subset_append_right _ _)
      refine (leaves_compileDecl hd (List.pairwise_append.1 hord).1).bind
        (fun _ => hrest.map _) hord ?_ hrest'
      obtain ⟨_, _, _, _, rfl, -⟩ := hd.inv
      exact List.forall_mem_singleton.2 ⟨_, List.mem_cons_self, rfl⟩

theorem leaves_compileExpr {e : Expr} (h : Written S e ts rest) (hs : ts ⊆ us) :
    Leaves us [] (compileExpr e) :=
  .of_keepsLocals (keepsLocals_compileExpr e) (refusesAt_compileExpr e h hs)

theorem leaves_compileHead {init : Option Stmt} (h : WrittenInit S init ts rest) (hord : InOrder ts) :
    Leaves ts (headDecls init) (compileHead init) := by
  cases h with
  | none => exact .pure _
  | expr _ h => exact (leaves_compileExpr h (List.Subset.refl _)).map _
  | var h =>
      exact ((leaves_compileDecls h (List.pairwise_cons.1 hord).2).map _).mono
        (List.subset_cons_self _ _)

mutual

theorem leaves_compileStmt : ∀ (st : Stmt) {ts rest : List Token}, WrittenStmt S st ts rest →
    InOrder ts → Leaves ts st.decls (compileStmt st)
  | .expr _ e, _, _, h, _ => by
      cases h with
      | expr _ h => exact (leaves_compileExpr h (List.subset_append_left _ _)).map _
  | .var _ decls, _, _, h, hord => by
      cases h with
      | var h =>
          have hdecls := (List.pairwise_cons.1 (List.pairwise_append.1 hord).1).2
          exact ((leaves_compileDecls h hdecls).map _).mono fun t ht => by simp [ht]
  | .ret _ none, _, _, _, _ => .pure _
  | .ret _ (some e), _, _, h, _ => by
      cases h with
      | ret h => exact (leaves_compileExpr h fun t ht => by simp [ht]).map _
  | .block _ body, _, _, h, hord => by
      cases h with
      | block h =>
          have hbody := (List.pairwise_cons.1 (List.pairwise_append.1 hord).1).2
          exact (leaves_compileStmts body h hbody).mono fun t ht => by simp [ht]
  | .loop _ init test update body, _, _, h, hord => by
      cases h with
      | @loop i j k l m n o p q r _ _ _ _ ts us vs ws _ hi ht hu hb =>
          -- the clauses of the head and the body, each with the mark in front of it
          rw [List.append_assoc, List.append_assoc] at hord ⊢
          obtain ⟨hinit, hmore, -⟩ := List.pairwise_append.1 hord
          obtain ⟨-, hmore', -⟩ := List.pairwise_append.1 hmore
          obtain ⟨-, hlast, -⟩ := List.pairwise_append.1 hmore'
          have hws : InOrder ws := (List.pairwise_cons.1 hlast).2
          have hstart := (allStart_stmt body hb).mono (List.subset_cons_self ⟨q, r, .mark ')'⟩ ws)
          have hhead := leaves_compileHead hi (List.pairwise_cons.1 (List.pairwise_cons.1 hinit).2).2
          have hrest := leaves_compileStmt body hb hws
          have hstart' := hstart.mono (List.subset_append_right (⟨o, p, .mark ';'⟩ :: vs) _)
          unfold compileStmt
          refine (hhead.mono fun t ht => by simp [ht]).bind (fun init' => ?_) hord
            ((allStart_head hi).mono fun t ht => by simp [ht])
            (hstart'.mono (List.subset_append_right _ _))
          refine (Leaves.of_keepsLocals (keepsLocals_compileTest test)
            ((refusesAt_compileTest ht).mono (List.subset_cons_self _ _))).silent_bind
            (fun test' => ?_) hmore hstart'
          refine (Leaves.of_keepsLocals (keepsLocals_compileOption update)
            ((refusesAt_compileOption hu).mono (List.subset_cons_self _ _))).silent_bind
            (fun step' => ?_) hmore' hstart
          refine Leaves.mono ?_ (List.subset_cons_self _ ws)
          cases body with
          | block _ stmts => exact hrest.map _
          | _ => exact .refuse_first hb.startsAt hws (allStart_stmt _ hb)
  | .function _ body, _, _, h, hord => by
      cases h with
      | function hf hi =>
          exact .refuse_first (hi ▸ (WrittenStmt.function hf hi).startsAt) hord
            (allStart_stmt _ (.function hf hi))
  | .empty _, _, _, _, _ => .pure _

theorem leaves_compileStmts : ∀ (body : List Stmt) {ts rest : List Token},
    WrittenAll S body ts rest → InOrder ts → Leaves ts (Stmt.allDecls body) (compileStmts body)
  | [], _, _, _, _ => .pure _
  | st :: body, _, _, h, hord => by
      cases h with
      | cons hst hb =>
          obtain ⟨hfirst, hrest, -⟩ := List.pairwise_append.1 hord
          exact (leaves_compileStmt st hst hfirst).bind
            (fun _ => (leaves_compileStmts body hb hrest).map _) hord (allStart_stmt st hst)
            (allStart_stmts body hb)

end

theorem leaves_compileFunction {f : Function} (h : WrittenFunction S f ts rest) (hord : InOrder ts) :
    Leaves ts (Stmt.allDecls f.body) (compileFunction f) := by
  cases h with
  | @function _ _ _ _ _ _ _ _ _ _ _ _ body _ _ ts' _ _ _ hb =>
      have hbraced := (List.pairwise_append.1 (List.pairwise_append.1 hord).1).2.1
      have hbody : InOrder ts' := (List.pairwise_cons.1 (List.pairwise_cons.1 hbraced).2).2
      have hname : Leaves [] [] (newName "code_") :=
        .of_keepsLocals (fun _ => rfl) (fun _ _ h => by cases h)
      suffices hleaves : Leaves ts' _ _ from hleaves.mono fun t ht => by simp [ht]
      exact hname.silent_bind (fun _ => (leaves_compileStmts body hb hbody).map _) hbody
        (allStart_stmts body hb)

theorem leaves_compileProgram : ∀ (program : List Stmt) {ts rest : List Token},
    WrittenAll S program ts rest → InOrder ts →
      Leaves ts (Stmt.allDecls program) (compileProgram program)
  | [], _, _, _, _ => .pure _
  | st :: program, ts, _, h, hord => by
      have hstarts := allStart_stmts (st :: program) h
      cases h with
      | cons hst hp =>
          obtain ⟨hfirst, hmore, -⟩ := List.pairwise_append.1 hord
          have hrest := leaves_compileProgram program hp hmore
          cases st with
          | function _ f =>
              cases hst with
              | function hf _ =>
                  exact (leaves_compileFunction hf hfirst).bind (fun _ => hrest.map _) hord
                    (allStart_stmt (.function _ f) (.function hf ‹_›)) (allStart_stmts program hp)
          | empty => exact hrest.mono (List.subset_append_right _ _)
          | expr | var | ret | block | loop =>
              exact .refuse_first (hst.startsAt.append _) hord hstarts

/-- The locals after a source has been refused: those of before, and the names that are declared in front
of the place of the refusal. -/
theorem isLocal_compile {names : Names} {source : String} {r : Refusal}
    (h : (compile names source).1 = .error r) (name : String) :
    (compile names source).2.isLocal name ↔ names.isLocal name ∨
      ∃ d ∈ sourceDecls source, d.start < r.index ∧ d.name = name ∧ name ∉ CodeBlock.boundNames := by
  unfold compile at h ⊢
  unfold sourceDecls
  cases hp : parse source with
  | error e => simp
  | ok program =>
      obtain ⟨ts, hts, hw⟩ := exists_written hp
      have hlocals := (leaves_compileProgram program hw (inOrder_of_tokenize hts)).locals { names } name
      rw [hp] at h
      dsimp only at h ⊢
      generalize (compileProgram program).run.run { names } = y at h hlocals ⊢
      obtain ⟨y, s⟩ := y
      cases y with
      | ok methods => cases h
      | error e =>
          cases h
          exact hlocals

/-- After a source the same names are locals as before. -/
def LeavesNoTrace (names : Names) (source : String) : Prop :=
  ∀ name, (compile names source).2.isLocal name = names.isLocal name

theorem leavesNoTrace_iff_declared {names : Names} {source : String} {r : Refusal}
    (h : (compile names source).1 = .error r) :
    LeavesNoTrace names source ↔ ∀ d ∈ sourceDecls source, d.start < r.index →
      d.name ∈ CodeBlock.boundNames ∨ names.isLocal d.name := by
  constructor
  · intro hsame d hd hlt
    by_cases hb : d.name ∈ CodeBlock.boundNames
    · exact Or.inl hb
    · rw [← hsame]
      exact Or.inr ((isLocal_compile h d.name).2 (Or.inr ⟨d, hd, hlt, rfl, hb⟩))
  · intro hall name
    rw [Bool.eq_iff_iff, isLocal_compile h]
    refine ⟨?_, Or.inl⟩
    rintro (hlocal | ⟨d, hd, hlt, rfl, hb⟩)
    · exact hlocal
    · exact (hall d hd hlt).resolve_left hb

/-- A refused source leaves no trace in the locals exactly if every name that is declared in front of the
place of the refusal is bound or was a local before. Where it leaves none, every later source is compiled as
if the refused one had never been there. -/
theorem leavesNoTrace_iff {names : Names} {source : String} {r : Refusal}
    (h : (compile names source).1 = .error r) :
    (LeavesNoTrace names source ↔ ∀ d ∈ sourceDecls source, d.start < r.index →
      d.name ∈ CodeBlock.boundNames ∨ names.isLocal d.name) ∧
    (Renamed names → LeavesNoTrace names source → ∀ later,
      SameOutcome (compile (compile names source).2 later).1 (compile names later).1) := by
  refine ⟨leavesNoTrace_iff_declared h, fun hn hsame later => ?_⟩
  exact (compile_sameOutcome ⟨hsame, renamed_compile hn source, hn⟩ later).1

/-- A declaration of a bound name in front of the refusal, and one of another name behind it. -/
theorem leavesNoTrace_iff_behind :
    ∃ r, (compile {} "function(){ var data = 1; this; var x; }").1 = .error r ∧
      LeavesNoTrace {} "function(){ var data = 1; this; var x; }" ∧
      ∀ later, SameOutcome
        (compile (compile {} "function(){ var data = 1; this; var x; }").2 later).1
        (compile {} later).1 := by
  generalize hs : "function(){ var data = 1; this; var x; }" = source
  have hok : (match (compile {} source).1 with
      | .ok _ => false
      | .error r => (sourceDecls source).all fun d =>
          !decide (d.start < r.index) || CodeBlock.boundNames.contains d.name) = true := by
    subst hs
    decide +kernel
  cases h : (compile {} source).1 with
  | ok t => simp [h] at hok
  | error r =>
      rw [h] at hok
      obtain ⟨hiff, hlater⟩ := leavesNoTrace_iff h
      have hnone : LeavesNoTrace {} source := by
        refine hiff.2 fun d hd hlt => Or.inl ?_
        simpa [hlt] using List.all_eq_true.1 hok d hd
      exact ⟨r, rfl, hnone, hlater (fun name given hg => by cases hg) hnone⟩

/-- The variable of the refused function is a local from then on, so that another function takes its own
name of the environment for it. -/
theorem not_leavesNoTrace_this :
    ∃ r, (compile {} "function(){ var x = 1; this; }").1 = .error r ∧
      (compile {} "function(){ var x = 1; this; }").2.isLocal "x" = true ∧
      (compile (compile {} "function(){ var x = 1; this; }").2
        "function(){ return x; }").1.toOption.map (·.reads) = some [] ∧
      (compile {} "function(){ return x; }").1.toOption.map (·.reads) = some ["x"] ∧
      ¬ LeavesNoTrace {} "function(){ var x = 1; this; }" := by
  generalize hs : "function(){ var x = 1; this; }" = source
  have hrefused : (compile {} source).1.isOk = false := by
    subst hs
    decide +kernel
  have hlocal : (compile {} source).2.isLocal "x" = true := by
    subst hs
    decide +kernel
  have hafter : (compile (compile {} source).2 "function(){ return x; }").1.toOption.map (·.reads) =
      some [] := by
    subst hs
    decide +kernel
  obtain ⟨r, h⟩ := exists_error hrefused
  refine ⟨r, h, hlocal, hafter, by decide +kernel, fun hnone => ?_⟩
  have := (hnone "x").symm.trans hlocal
  cases this

end TwinView.Script
