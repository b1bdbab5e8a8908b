import Mathlib.Data.List.Nodup
import Mathlib.Tactic.SplitIfs
import TwinView.Proofs.Code.Scoping
import TwinView.Proofs.Script.Undeclared

/-!
Scopes of the locals of scripts. A local keeps the name that it is given at its first declaration, also
in the scripts that are compiled later. So a variable in a method is a parameter, is declared further up
in the method, or was declared by a function before it; and where a function declares every name once,
so does its method.
-/

namespace TwinView.Script

open Code (Names)
open Code.Stmt (after AllScoped DeclsScoped AreNew AllDeclareNew OptionDeclaresNew)

variable {α : Type}

/-! What scripts declare. -/

mutual

/-- The names that a statement declares for those behind it. A block adds its own, a loop keeps them. -/
def Stmt.declared : Stmt → List String
  | .var _ decls => decls.map (·.name)
  | .block _ body => Stmt.allDeclared body
  | .expr _ _ | .ret _ _ | .loop _ _ _ _ _ | .function _ _ | .empty _ => []

def Stmt.allDeclared : List Stmt → List String
  | [] => []
  | st :: rest => st.declared ++ Stmt.allDeclared rest

end

mutual

def Stmt.declaresNew (scope : List String) : Stmt → Bool
  | .var _ decls => AreNew scope (decls.map (·.name))
  | .block _ body => Stmt.allDeclareNew scope body
  | .loop _ init _ _ body =>
    AreNew scope (headNames init) && body.declaresNew (scope ++ headNames init)
  | .expr _ _ | .ret _ _ | .function _ _ | .empty _ => true

def Stmt.allDeclareNew (scope : List String) : List Stmt → Bool
  | [] => true
  | st :: rest => st.declaresNew scope && Stmt.allDeclareNew (scope ++ st.declared) rest

end

def functions : List Stmt → List Function
  | [] => []
  | .function _ f :: rest => f :: functions rest
  | _ :: rest => functions rest

def sourceLocals (source : String) : List String :=
  match parse source with
  | .ok program => Stmt.allLocals program
  | .error _ => []

/-- The names after sources have been compiled one after another, refused ones included. -/
def takenBy (names : Names) (sources : List String) : Names :=
  sources.foldl (fun names source => (compile names source).2) names

/-! Locals are added where they are declared, and keep their names. -/

def Extends (locals locals' : List (String × String)) : Prop :=
  ∀ key given, locals.lookup key = some given → locals'.lookup key = some given

/-- All locals are kept, and a new one is among the names. -/
structure Gains (declared : List String) (n n' : Names) : Prop where
  kept : Extends n.locals n'.locals
  new : ∀ key, n'.isLocal key → n.isLocal key ∨ key ∈ declared

theorem Gains.refl (declared : List String) (n : Names) : Gains declared n n :=
  ⟨fun _ _ h => h, fun _ h => Or.inl h⟩

theorem Gains.trans {a b : List String} {n n' n'' : Names} (h : Gains a n n') (h' : Gains b n' n'') :
    Gains (a ++ b) n n'' where
  kept key given hk := h'.kept key given (h.kept key given hk)
  new key hk := by
    rcases h'.new key hk with hk | hk
    · exact (h.new key hk).imp_right (List.mem_append_left _)
    · exact Or.inr (List.mem_append_right _ hk)

theorem gains_rename (n : Names) (name : String) : Gains [name] n (n.rename name).2 where
  kept key given hk := by
    unfold Names.rename
    split
    · exact hk
    · next hnone =>
        have hne : (key == name) = false := by
          rw [beq_eq_false_iff_ne]
          rintro rfl
          rw [hnone] at hk
          cases hk
        simpa [List.lookup_cons, hne, Names.fresh] using hk
  new key hk := by
    rw [Names.isLocal_rename, Bool.or_eq_true] at hk
    exact hk.symm.imp_right (by simp)

theorem Gains.mono {a b : List String} {n n' : Names} (h : Gains a n n') (hab : a ⊆ b) :
    Gains b n n' where
  kept := h.kept
  new key hk := (h.new key hk).imp_right fun hm => hab hm

def Scope.Gain (declared : List String) (s t : Scope) : Prop := Gains declared s.names t.names

instance (declared : List String) : IsPreorder Scope (Scope.Gain declared) where
  refl s := .refl declared s.names
  trans _ _ _ h h' := (Gains.trans h h').mono (by simp)

def Adds (declared : List String) (x : Compile α) : Prop :=
  ∀ s, Gains declared s.names (x.run.run s).2.names

variable {declared : List String}

theorem adds_iff_moves {x : Compile α} : Adds declared x ↔ Moves (Scope.Gain declared) x := Iff.rfl

theorem KeepsLocals.adds {x : Compile α} (h : KeepsLocals x) : Adds declared x := by
  intro s
  have hs := h s
  exact ⟨fun key given hk => hs.symm ▸ hk, fun key hk => Or.inl (by rwa [Names.isLocal, hs] at hk)⟩

theorem Adds.gains {x : Compile α} (h : Adds declared x) {s s' : Scope} {a : α}
    (hy : Yields x s a s') : Gains declared s.names s'.names := (adds_iff_moves.1 h).of_yields hy

theorem usedMove_gain : UsedMove (Scope.Gain declared) := fun _ name hu =>
  adds_iff_moves.1 (keepsLocals_compileName hu name).adds

theorem adds_compileName (usage : Usage) {name : String} (h : name ∈ declared) :
    Adds declared (compileName usage name) :=
  adds_iff_moves.2 <| moves_compileName (keepsLocals_noteExtra name usage).adds
    fun s _ => (gains_rename s.names name).mono (by simpa using h)

theorem adds_compileDecls (ds : List Decl) : Adds (ds.map (·.name)) (compileDecls ds) :=
  moves_compileDecls usedMove_gain ds fun _ => adds_compileName .declare

theorem adds_compileStmts (body : List Stmt) : Adds (Stmt.allLocals body) (compileStmts body) :=
  moves_compileStmts usedMove_gain body fun _ => adds_compileName .declare

theorem adds_compileFunction (f : Function) : Adds (Stmt.allLocals f.body) (compileFunction f) :=
  moves_compileFunction usedMove_gain (keepsLocals_newName _).adds f fun _ => adds_compileName .declare

theorem adds_compileProgram (program : List Stmt) :
    Adds (Stmt.allLocals program) (compileProgram program) :=
  moves_compileProgram usedMove_gain (keepsLocals_newName _).adds program
    fun _ => adds_compileName .declare

theorem gains_compile (n : Names) (source : String) :
    Gains (sourceLocals source) n (compile n source).2 := by
  unfold compile sourceLocals
  cases parse source with
  | error r => exact .refl _ n
  | ok program =>
      have h := adds_compileProgram program { names := n }
      dsimp only
      generalize (compileProgram program).run.run { names := n } = r at h ⊢
      obtain ⟨r, s⟩ := r
      cases r <;> exact h

theorem gains_takenBy (n : Names) (sources : List String) :
    Gains (sources.flatMap sourceLocals) n (takenBy n sources) := by
  induction sources generalizing n with
  | nil => exact .refl _ n
  | cons source rest ih => exact (gains_compile n source).trans (ih _)

theorem renamed_takenBy {n : Names} (h : Renamed n) (sources : List String) :
    Renamed (takenBy n sources) := by
  induction sources generalizing n with
  | nil => exact h
  | cons source rest ih => exact ih (renamed_compile h source)

/-! The names that stand for declared ones. -/

/-- The name has one that stands for it: it is bound, or a local. -/
def HasName (locals : List (String × String)) (name : String) : Prop :=
  name ∈ CodeBlock.boundNames ∨ (locals.lookup name).isSome

/-- The name that stands for a name of a script. Bound names stand for themselves. -/
def givenName (locals : List (String × String)) (name : String) : String :=
  if name ∈ CodeBlock.boundNames then name else (locals.lookup name).getD name

variable {locals locals' : List (String × String)} {name : String}

theorem HasName.extends (h : HasName locals name) (he : Extends locals locals') :
    HasName locals' name := by
  refine h.imp_right fun h => ?_
  obtain ⟨given, hg⟩ := Option.isSome_iff_exists.1 h
  rw [he name given hg]
  rfl

theorem HasName.givenName_extends (h : HasName locals name) (he : Extends locals locals') :
    givenName locals' name = givenName locals name := by
  unfold givenName
  split_ifs with hb
  · rfl
  · obtain ⟨given, hg⟩ := Option.isSome_iff_exists.1 (h.resolve_left hb)
    rw [hg, he name given hg]

theorem map_givenName_extends {names : List String} (h : ∀ name ∈ names, HasName locals name)
    (he : Extends locals locals') : names.map (givenName locals') = names.map (givenName locals) :=
  List.map_congr_left fun name hn => (h name hn).givenName_extends he

/-- What a declared name becomes: it stands for the name from then on, and nothing else becomes
known. -/
structure Introduces (s s' : Scope) (name given : String) : Prop where
  hasName : HasName s'.names.locals name
  eq_givenName : given = givenName s'.names.locals name
  known : ∀ x, Known s'.names.locals x → Known s.names.locals x ∨ x = given

theorem introduces_bound (s : Scope) (h : name ∈ CodeBlock.boundNames) : Introduces s s name name :=
  ⟨Or.inl h, by rw [givenName, if_pos h], fun _ => Or.inl⟩

theorem introduces_rename (s : Scope) (h : name ∉ CodeBlock.boundNames) :
    Introduces s { s with names := (s.names.rename name).2 } name (s.names.rename name).1 := by
  cases hl : s.names.locals.lookup name with
  | some given =>
      have hr : s.names.rename name = (given, s.names) := by simp [Names.rename, hl]
      rw [hr]
      exact ⟨Or.inr (by simp [hl]), by simp [givenName, h, hl], fun _ => Or.inl⟩
  | none =>
      obtain ⟨given, hlocals⟩ : ∃ given, s.names.rename name = (given,
          { (s.names.fresh (name ++ "_")).2 with locals := (name, given) :: s.names.locals }) :=
        ⟨(s.names.fresh (name ++ "_")).1, by simp [Names.rename, hl, Names.fresh]⟩
      rw [hlocals]
      refine ⟨Or.inr (by simp), by simp [givenName, h], ?_⟩
      rintro x (hb | ⟨key, hk⟩)
      · exact Or.inl (Or.inl hb)
      · by_cases hkey : key = name
        · subst hkey
          exact Or.inr (by simpa using hk.symm)
        · have hne : (key == name) = false := by simpa using hkey
          exact Or.inl (Or.inr ⟨key, by simpa [List.lookup_cons, hne] using hk⟩)

theorem introduces_compileName {s s' : Scope} {given : String} {type : Code.Ty} {p : Bool}
    (h : Yields (compileName .declare name) s (.var given type p) s') :
    Introduces s s' name given := by
  have hextra {s s' : Scope} : ¬ Yields (noteExtra name .declare) s (.var given type p) s' := by
    intro h
    cases h
  unfold compileName at h
  split_ifs at h
  · split at h
    iterate 3 cases (yields_pure.1 h).1
    exact absurd h hextra
  · split at h
    iterate 4
      obtain ⟨he, rfl⟩ := yields_pure.1 h
      cases he
      exact introduces_bound s' (by simp [CodeBlock.boundNames])
    next hdata hindex hcount hkey =>
      have hb : name ∉ CodeBlock.boundNames := by
        simpa [CodeBlock.boundNames] using ⟨hdata, hindex, hcount, hkey⟩
      simp only [localName, yields_bind, yields_get, yields_set, yields_pure, decide_true, Bool.true_or,
        if_true] at h
      obtain ⟨_, _, ⟨rfl, rfl⟩, _, _, ⟨rfl, rfl⟩, _, _, rfl, he, rfl⟩ := h
      cases he
      exact introduces_rename _ hb

/-- Compiled declarations: they stand for those of the script, in order. -/
structure Introduced (s s' : Scope) (names : List String) (ds : List Code.VarDecl) : Prop where
  hasName : ∀ name ∈ names, HasName s'.names.locals name
  names_eq : ds.map (·.name) = names.map (givenName s'.names.locals)
  known : ∀ x, Known s'.names.locals x → Known s.names.locals x ∨ x ∈ ds.map (·.name)
  inits : DeclsScoped (Known s.names.locals) ds

theorem introduced_compileDecls {ds : List Decl} {s s' : Scope} {cs : List Code.VarDecl}
    (h : Yields (compileDecls ds) s cs s') : Introduced s s' (ds.map (·.name)) cs := by
  induction ds generalizing s cs with
  | nil =>
      obtain ⟨rfl, rfl⟩ := yields_pure.1 h
      exact ⟨by simp, rfl, fun _ => Or.inl, True.intro⟩
  | cons d rest ih =>
      obtain ⟨c, t, hd, h⟩ := yields_bind.1 h
      obtain ⟨cs', t', hrest, h⟩ := yields_bind.1 h
      obtain ⟨rfl, rfl⟩ := yields_pure.1 h
      have hr := ih hrest
      obtain ⟨e, u, hname, hd⟩ := yields_bind.1 hd
      split at hd
      · next given type p =>
          obtain ⟨init, u', hinit, hd⟩ := yields_bind.1 hd
          obtain ⟨rfl, rfl⟩ := yields_pure.1 hd
          have hi := introduces_compileName hname
          obtain ⟨hu, hknows⟩ := refers_compileOption d.init u init t rfl hinit
          have he : Extends u.names.locals s'.names.locals := by
            rw [← hu]
            exact ((adds_compileDecls rest).gains hrest).kept
          refine ⟨?_, ?_, ?_, ?_, ?_⟩
          · exact List.forall_mem_cons.2 ⟨hi.hasName.extends he, hr.hasName⟩
          · simp only [List.map_cons, hr.names_eq, hi.eq_givenName, hi.hasName.givenName_extends he]
          · intro x hx
            rcases hr.known x hx with hx | hx
            · rw [hu] at hx
              exact (hi.known x hx).imp_right fun hx => by simp [hx]
            · exact Or.inr (List.mem_cons_of_mem _ hx)
          · exact fun e he => (hknows e he).knows.mono hi.known
          · exact hr.inits.mono fun x hx => hi.known x (hu ▸ hx)
      · exact absurd hd yields_refuse

/-! Statements. -/

/-- Compiled statements: they declare what stands for the names, their variables are known or declared
further up, and nothing else becomes known. -/
structure Placed (s s' : Scope) (names : List String) (code : List Code.Stmt) : Prop where
  hasName : ∀ name ∈ names, HasName s'.names.locals name
  names_eq : code.flatMap Code.Stmt.declared = names.map (givenName s'.names.locals)
  known : ∀ x, Known s'.names.locals x → after (Known s.names.locals) code x
  uses : AllScoped (Known s.names.locals) code

variable {s t s' : Scope} {names names' : List String} {code code' : List Code.Stmt}

theorem placed_nil (s : Scope) : Placed s s [] [] :=
  ⟨by simp, rfl, fun _ => Or.inl, True.intro⟩

theorem placed_one {st : Code.Stmt} (hd : st.declared = []) (hs : s'.names.locals = s.names.locals)
    (h : st.Scoped (Known s.names.locals)) : Placed s s' [] [st] :=
  ⟨by simp, by simp [hd], fun x hx => Or.inl (hs ▸ hx), Code.Stmt.allScoped_one.2 h⟩

theorem Placed.append (h : Placed s t names code) (h' : Placed t s' names' code')
    (he : Extends t.names.locals s'.names.locals) : Placed s s' (names ++ names') (code ++ code') where
  hasName := List.forall_mem_append.2 ⟨fun name hn => (h.hasName name hn).extends he, h'.hasName⟩
  names_eq := by
    rw [List.flatMap_append, List.map_append, h.names_eq, h'.names_eq, map_givenName_extends h.hasName he]
  known x hx := by
    rw [← Code.Stmt.after_append]
    exact Code.Stmt.after_mono h.known (h'.known x hx)
  uses := Code.Stmt.allScoped_append.2 ⟨h.uses, h'.uses.mono h.known⟩

theorem Introduced.placed {ds : List Code.VarDecl} (h : Introduced s s' names ds) :
    Placed s s' names [declStmt ds] := by
  have hdeclared : (declStmt ds).declared = ds.map (·.name) := by
    unfold declStmt
    split <;> rfl
  have hall : Code.Stmt.allDeclared [declStmt ds] = ds.map (·.name) := by
    unfold declStmt
    split <;> simp [Code.Stmt.allDeclared, Code.Stmt.allOf, Code.Stmt.withInner, Code.Stmt.declared]
  refine ⟨h.hasName, by simp [hdeclared, h.names_eq], fun x hx => ?_, Code.Stmt.allScoped_one.2 ?_⟩
  · rw [after, hall]
    exact h.known x hx
  · unfold declStmt
    split <;> exact h.inits

theorem placed_compileExpr {e : Expr} {c : Code.Expr} (h : Yields (compileExpr e) s c s') :
    Placed s s' [] [.expr c] := by
  obtain ⟨hs, hc⟩ := refers_compileExpr e s c s' rfl h
  exact placed_one rfl hs hc.knows

theorem placed_compileHead {init : Option Stmt} {c : Option Code.Stmt}
    (h : Yields (compileHead init) s c s') : Placed s s' (headNames init) c.toList := by
  unfold compileHead at h
  split at h
  · obtain ⟨e, _, he, h⟩ := yields_bind.1 h
    obtain ⟨rfl, rfl⟩ := yields_pure.1 h
    exact placed_compileExpr he
  · obtain ⟨ds, _, hds, h⟩ := yields_bind.1 h
    obtain ⟨rfl, rfl⟩ := yields_pure.1 h
    exact (introduced_compileDecls hds).placed
  · obtain ⟨rfl, rfl⟩ := yields_pure.1 h
    unfold headNames
    split
    · next hnone => exact absurd rfl (hnone _ _)
    · exact placed_nil _

theorem Placed.loop {init : Option Code.Stmt} {test : Code.Expr} {step : Option Code.Expr}
    {body : List Code.Stmt} (hi : Placed s t names init.toList) (hb : Placed t s' names' body)
    (ht : test.Knows (Known t.names.locals)) (hs : ∀ e ∈ step, e.Knows (Known t.names.locals)) :
    Placed s s' [] [.loop init test (step.map fun e => .expr e) body] where
  hasName := by simp
  names_eq := by simp [Code.Stmt.declared]
  known x hx := by
    have h := Code.Stmt.after_mono hi.known (hb.known x hx)
    rw [Code.Stmt.after_append] at h
    rwa [after, Code.Stmt.allDeclared_loop, ← Code.Stmt.allDeclared_append]
  uses := by
    refine Code.Stmt.allScoped_one.2 ⟨?_, ht.mono hi.known, ?_, hb.uses.mono hi.known⟩
    · cases init with
      | none => exact True.intro
      | some st => exact Code.Stmt.allScoped_one.1 hi.uses
    · cases step with
      | none => exact True.intro
      | some e => exact (hs e rfl).mono hi.known

mutual

theorem placed_compileStmt : ∀ (st : Stmt) {s s' : Scope} {code : List Code.Stmt},
    Yields (compileStmt st) s code s' → Placed s s' st.declared code
  | .expr _ e, _, _, _, h => by
      obtain ⟨c, _, hc, h⟩ := yields_bind.1 h
      obtain ⟨rfl, rfl⟩ := yields_pure.1 h
      exact placed_compileExpr hc
  | .var _ decls, _, _, _, h => by
      obtain ⟨ds, _, hds, h⟩ := yields_bind.1 h
      obtain ⟨rfl, rfl⟩ := yields_pure.1 h
      exact (introduced_compileDecls hds).placed
  | .ret _ none, _, _, _, h => by
      obtain ⟨rfl, rfl⟩ := yields_pure.1 h
      refine placed_one rfl rfl fun e he => ?_
      cases he
      exact nofun
  | .ret _ (some e), s, s', _, h => by
      obtain ⟨c, _, hc, h⟩ := yields_bind.1 h
      obtain ⟨rfl, rfl⟩ := yields_pure.1 h
      obtain ⟨hs, hc⟩ := refers_compileExpr e s c s' rfl hc
      refine placed_one rfl hs fun e he => ?_
      cases he
      exact hc.knows
  | .block _ body, _, _, _, h => placed_compileStmts body h
  | .loop _ init test update body, s, s', code, h => by
      unfold compileStmt at h
      obtain ⟨head, t₁, hhead, h⟩ := yields_bind.1 h
      obtain ⟨c, t₂, htest, h⟩ := yields_bind.1 h
      obtain ⟨step, t₃, hstep, h⟩ := yields_bind.1 h
      cases body with
      | block _ stmts =>
          obtain ⟨b, _, hbody, h⟩ := yields_bind.1 h
          obtain ⟨rfl, rfl⟩ := yields_pure.1 h
          obtain ⟨h₂, ht⟩ := refers_compileTest test t₁ c t₂ rfl htest
          obtain ⟨h₃, hs⟩ := refers_compileOption update t₂ step t₃ rfl hstep
          -- nothing is declared between the head and the body
          have hb := placed_compileStmts stmts hbody
          have hlocals : t₃.names.locals = t₁.names.locals := h₃.trans h₂
          have hplaced : Placed t₁ _ (Stmt.allDeclared stmts) b :=
            ⟨hb.hasName, hb.names_eq, hlocals ▸ hb.known, hlocals ▸ hb.uses⟩
          refine (placed_compileHead hhead).loop hplaced ht.knows ?_
          exact fun e he => h₂ ▸ (hs e he).knows
      | _ => exact absurd h yields_refuse
  | .function _ _, _, _, _, h => absurd h yields_refuse
  | .empty _, _, _, _, h => by
      obtain ⟨rfl, rfl⟩ := yields_pure.1 h
      exact placed_nil _

theorem placed_compileStmts : ∀ (body : List Stmt) {s s' : Scope} {code : List Code.Stmt},
    Yields (compileStmts body) s code s' → Placed s s' (Stmt.allDeclared body) code
  | [], _, _, _, h => by
      obtain ⟨rfl, rfl⟩ := yields_pure.1 h
      exact placed_nil _
  | st :: rest, _, _, _, h => by
      obtain ⟨first, t, hfirst, h⟩ := yields_bind.1 h
      obtain ⟨others, _, hrest, h⟩ := yields_bind.1 h
      obtain ⟨rfl, rfl⟩ := yields_pure.1 h
      exact (placed_compileStmt st hfirst).append (placed_compileStmts rest hrest)
        ((adds_compileStmts rest).gains hrest).kept

end

/-! What is declared is new. -/

def paramNames : List String := Code.renderParams.map (·.name)

theorem unnumbered_ne_of_mem_paramNames {param : String} (h : param ∈ paramNames) (name : String) :
    Code.unnumbered param ≠ name ++ "_" := by
  have hlast : ∀ param ∈ paramNames, (Code.unnumbered param).toList.getLast? ≠ some '_' := by decide
  intro he
  refine hlast param h ?_
  simp [he]

theorem mem_paramNames_of_bound (h : name ∈ CodeBlock.boundNames) : name ∈ paramNames := by
  have hsub : CodeBlock.boundNames ⊆ paramNames := by decide
  exact hsub h

theorem HasName.unnumbered_givenName {n : Names} (hr : Renamed n) (h : HasName n.locals name)
    (hb : name ∉ CodeBlock.boundNames) : Code.unnumbered (givenName n.locals name) = name ++ "_" := by
  obtain ⟨given, hg⟩ := Option.isSome_iff_exists.1 (h.resolve_left hb)
  simpa [givenName, hb, hg] using hr name given hg

theorem givenName_inj {n : Names} (hr : Renamed n) {a b : String} (ha : HasName n.locals a)
    (hb : HasName n.locals b) (h : givenName n.locals a = givenName n.locals b) : a = b := by
  have hbound {x y : String} (hx : x ∈ CodeBlock.boundNames) (hy : HasName n.locals y)
      (hy' : y ∉ CodeBlock.boundNames) : givenName n.locals x ≠ givenName n.locals y := by
    intro he
    have hx' : givenName n.locals x = x := by rw [givenName, if_pos hx]
    refine unnumbered_ne_of_mem_paramNames (mem_paramNames_of_bound hx) y ?_
    rw [← hx', he, hy.unnumbered_givenName hr hy']
  by_cases ha' : a ∈ CodeBlock.boundNames <;> by_cases hb' : b ∈ CodeBlock.boundNames
  · simpa [givenName, ha', hb'] using h
  · exact absurd h (hbound ha' hb hb')
  · exact absurd h.symm (hbound hb' ha ha')
  · have hu := congrArg Code.unnumbered h
    rw [ha.unnumbered_givenName hr ha', hb.unnumbered_givenName hr hb'] at hu
    simpa using hu

/-- The names in scope of a method, for those in scope of its function. -/
def scopeOf (locals : List (String × String)) (scope : List String) : List String :=
  "context" :: scope.map (givenName locals)

theorem scopeOf_append (scope names : List String) :
    scopeOf locals (scope ++ names) = scopeOf locals scope ++ names.map (givenName locals) := by
  simp [scopeOf]

theorem scopeOf_boundNames (locals : List (String × String)) :
    scopeOf locals CodeBlock.boundNames = paramNames := by
  have h : ∀ name ∈ CodeBlock.boundNames, givenName locals name = name := by
    intro name hn
    rw [givenName, if_pos hn]
  rw [scopeOf, List.map_congr_left h, List.map_id']
  decide

theorem areNew_map {n : Names} {scope : List String} (hr : Renamed n)
    (hs : ∀ name ∈ scope, HasName n.locals name) (hn : ∀ name ∈ names, HasName n.locals name)
    (h : AreNew scope names) : AreNew (scopeOf n.locals scope) (names.map (givenName n.locals)) := by
  refine ⟨List.Nodup.map_on (fun a ha b hb hab => givenName_inj hr (hn a ha) (hn b hb) hab) h.1, ?_⟩
  intro given hg hmem
  obtain ⟨name, hname, rfl⟩ := List.mem_map.1 hg
  rcases List.mem_cons.1 hmem with hc | hmem
  · by_cases hb : name ∈ CodeBlock.boundNames
    · rw [givenName, if_pos hb] at hc
      rw [hc] at hb
      exact absurd hb (by decide)
    · refine unnumbered_ne_of_mem_paramNames (show "context" ∈ paramNames by decide) name ?_
      rw [← hc, (hn name hname).unnumbered_givenName hr hb]
  · obtain ⟨other, hother, he⟩ := List.mem_map.1 hmem
    have := givenName_inj hr (hs other hother) (hn name hname) he
    exact h.2 name hname (this ▸ hother)

theorem declaresNew_declStmt {scope : List String} {ds : List Code.VarDecl}
    (h : AreNew scope (ds.map (·.name))) : (declStmt ds).DeclaresNew scope := by
  unfold declStmt
  split <;> exact h

variable {n : Names} {scope : List String}

theorem declaresNew_compileDecls (hr : Renamed n) {ds : List Decl} {cs : List Code.VarDecl}
    (h : Yields (compileDecls ds) s cs s') (he : Extends s'.names.locals n.locals)
    (hs : ∀ name ∈ scope, HasName n.locals name) (hn : AreNew scope (ds.map (·.name))) :
    (declStmt cs).DeclaresNew (scopeOf n.locals scope) := by
  have hi := introduced_compileDecls h
  refine declaresNew_declStmt ?_
  rw [hi.names_eq, ← map_givenName_extends hi.hasName he]
  exact areNew_map hr hs (fun name hm => (hi.hasName name hm).extends he) hn

theorem declaresNew_compileHead (hr : Renamed n) {init : Option Stmt} {c : Option Code.Stmt}
    (h : Yields (compileHead init) s c s') (he : Extends s'.names.locals n.locals)
    (hs : ∀ name ∈ scope, HasName n.locals name) (hn : AreNew scope (headNames init)) :
    OptionDeclaresNew (scopeOf n.locals scope) c := by
  unfold compileHead at h
  split at h
  · obtain ⟨e, _, -, h⟩ := yields_bind.1 h
    obtain ⟨rfl, rfl⟩ := yields_pure.1 h
    exact True.intro
  · obtain ⟨ds, _, hds, h⟩ := yields_bind.1 h
    obtain ⟨rfl, rfl⟩ := yields_pure.1 h
    exact declaresNew_compileDecls hr hds he hs hn
  · obtain ⟨rfl, rfl⟩ := yields_pure.1 h
    exact True.intro

theorem Placed.scopeOf_append (h : Placed s t names code) (he : Extends t.names.locals n.locals)
    (scope : List String) :
    scopeOf n.locals scope ++ code.flatMap Code.Stmt.declared = scopeOf n.locals (scope ++ names) := by
  rw [Script.scopeOf_append, h.names_eq, map_givenName_extends h.hasName he]

theorem Placed.hasName_append (h : Placed s t names code) (he : Extends t.names.locals n.locals)
    (hs : ∀ name ∈ scope, HasName n.locals name) : ∀ name ∈ scope ++ names, HasName n.locals name :=
  List.forall_mem_append.2 ⟨hs, fun name hn => (h.hasName name hn).extends he⟩

mutual

/-- If no declaration of the script repeats a name in scope, none of the code does, by induction on the
syntax; the given names are read off the locals at the end. -/
theorem declaresNew_compileStmt (hr : Renamed n) : ∀ (st : Stmt) {s s' : Scope} {code : List Code.Stmt}
    {scope : List String}, Yields (compileStmt st) s code s' → Extends s'.names.locals n.locals →
    (∀ name ∈ scope, HasName n.locals name) → st.declaresNew scope →
    AllDeclareNew (scopeOf n.locals scope) code
  | .expr _ _, _, _, _, _, h, _, _, _ => by
      obtain ⟨c, _, -, h⟩ := yields_bind.1 h
      obtain ⟨rfl, rfl⟩ := yields_pure.1 h
      exact ⟨True.intro, True.intro⟩
  | .var _ decls, _, _, _, _, h, he, hs, hn => by
      obtain ⟨ds, _, hds, h⟩ := yields_bind.1 h
      obtain ⟨rfl, rfl⟩ := yields_pure.1 h
      exact Code.Stmt.allDeclareNew_one.2
        (declaresNew_compileDecls hr hds he hs (of_decide_eq_true hn))
  | .ret _ none, _, _, _, _, h, _, _, _ => by
      obtain ⟨rfl, rfl⟩ := yields_pure.1 h
      exact ⟨True.intro, True.intro⟩
  | .ret _ (some _), _, _, _, _, h, _, _, _ => by
      obtain ⟨c, _, -, h⟩ := yields_bind.1 h
      obtain ⟨rfl, rfl⟩ := yields_pure.1 h
      exact ⟨True.intro, True.intro⟩
  | .block _ body, _, _, _, _, h, he, hs, hn => declaresNew_compileStmts hr body h he hs hn
  | .loop _ init test update body, _, s', _, scope, h, he, hs, hn => by
      unfold compileStmt at h
      obtain ⟨head, t₁, hhead, h⟩ := yields_bind.1 h
      obtain ⟨c, t₂, htest, h⟩ := yields_bind.1 h
      obtain ⟨step, t₃, hstep, h⟩ := yields_bind.1 h
      cases body with
      | block _ stmts =>
          obtain ⟨b, _, hbody, h⟩ := yields_bind.1 h
          obtain ⟨rfl, rfl⟩ := yields_pure.1 h
          simp only [Stmt.declaresNew, Bool.and_eq_true, decide_eq_true_eq] at hn
          have hlocals : t₃.names.locals = t₁.names.locals :=
            (refers_compileOption update t₂ step t₃ rfl hstep).1.trans
              (refers_compileTest test t₁ c t₂ rfl htest).1
          have he₁ : Extends t₁.names.locals n.locals := by
            intro key given hk
            exact he key given (((adds_compileStmts stmts).gains hbody).kept key given (hlocals ▸ hk))
          have hplaced := placed_compileHead hhead
          refine Code.Stmt.allDeclareNew_one.2
            ⟨declaresNew_compileHead hr hhead he₁ hs hn.1, ?_, ?_⟩
          · cases step <;> exact True.intro
          · rw [hplaced.scopeOf_append he₁]
            exact declaresNew_compileStmts hr stmts hbody he (hplaced.hasName_append he₁ hs) hn.2
      | _ => exact absurd h yields_refuse
  | .function _ _, _, _, _, _, h, _, _, _ => absurd h yields_refuse
  | .empty _, _, _, _, _, h, _, _, _ => by
      obtain ⟨rfl, rfl⟩ := yields_pure.1 h
      exact True.intro

theorem declaresNew_compileStmts (hr : Renamed n) :
    ∀ (body : List Stmt) {s s' : Scope} {code : List Code.Stmt} {scope : List String},
    Yields (compileStmts body) s code s' → Extends s'.names.locals n.locals →
    (∀ name ∈ scope, HasName n.locals name) → Stmt.allDeclareNew scope body →
    AllDeclareNew (scopeOf n.locals scope) code
  | [], _, _, _, _, h, _, _, _ => by
      obtain ⟨rfl, rfl⟩ := yields_pure.1 h
      exact True.intro
  | st :: rest, _, _, _, _, h, he, hs, hn => by
      obtain ⟨first, t, hfirst, h⟩ := yields_bind.1 h
      obtain ⟨others, _, hrest, h⟩ := yields_bind.1 h
      obtain ⟨rfl, rfl⟩ := yields_pure.1 h
      obtain ⟨hn, hn'⟩ := Bool.and_eq_true_iff.1 hn
      have het : Extends t.names.locals n.locals := fun key given hk =>
        he key given (((adds_compileStmts rest).gains hrest).kept key given hk)
      have hplaced := placed_compileStmt st hfirst
      refine Code.Stmt.allDeclareNew_append.2 ⟨declaresNew_compileStmt hr st hfirst het hs hn, ?_⟩
      rw [hplaced.scopeOf_append het]
      exact declaresNew_compileStmts hr rest hrest he (hplaced.hasName_append het hs) hn'

end

/-! Methods. -/

theorem allScoped_compileFunction {f : Function} {m : Code.Method}
    (h : Yields (compileFunction f) s m s') : AllScoped (Known s.names.locals) m.body := by
  obtain ⟨_, t, hname, h⟩ := yields_bind.1 h
  obtain ⟨body, _, hbody, h⟩ := yields_bind.1 h
  obtain ⟨rfl, rfl⟩ := yields_pure.1 h
  cases hname
  have hb := (placed_compileStmts f.body hbody).uses
  dsimp only
  split
  · exact hb
  · refine Code.Stmt.allScoped_append.2 ⟨hb, Code.Stmt.allScoped_one.2 fun e he => ?_⟩
    cases he
    exact nofun

theorem allDeclareNew_compileFunction {f : Function} {m : Code.Method} (hr : Renamed n)
    (h : Yields (compileFunction f) s m s') (he : Extends s'.names.locals n.locals)
    (hn : Stmt.allDeclareNew CodeBlock.boundNames f.body) : AllDeclareNew paramNames m.body := by
  obtain ⟨_, t, -, h⟩ := yields_bind.1 h
  obtain ⟨body, _, hbody, h⟩ := yields_bind.1 h
  obtain ⟨rfl, rfl⟩ := yields_pure.1 h
  have hb := declaresNew_compileStmts hr f.body hbody he (fun _ => Or.inl) hn
  rw [scopeOf_boundNames] at hb
  dsimp only
  split
  · exact hb
  · exact Code.Stmt.allDeclareNew_append.2 ⟨hb, True.intro, True.intro⟩

/-- Each method is a function, compiled where the functions before it have been. -/
theorem yields_of_getElem?_methods (program : List Stmt) {s s' : Scope} {ms : List Code.Method}
    (h : Yields (compileProgram program) s ms s') {i : Nat} {m : Code.Method} (hm : ms[i]? = some m) :
    ∃ f t t', (functions program)[i]? = some f ∧
      Gains (((functions program).take i).flatMap fun f => Stmt.allLocals f.body) s.names t.names ∧
      Yields (compileFunction f) t m t' ∧ Extends t'.names.locals s'.names.locals := by
  fun_induction compileProgram program generalizing s ms i with
  | case1 =>
      obtain ⟨rfl, rfl⟩ := yields_pure.1 h
      cases hm
  | case2 _ f rest ih =>
      obtain ⟨m', u, hf, h⟩ := yields_bind.1 h
      obtain ⟨ms', _, hrest, h⟩ := yields_bind.1 h
      obtain ⟨rfl, rfl⟩ := yields_pure.1 h
      cases i with
      | zero =>
          cases hm
          exact ⟨f, s, u, rfl, .refl _ _, hf, ((adds_compileProgram rest).gains hrest).kept⟩
      | succ i =>
          obtain ⟨g, t, t', hg, hgains, hy, he⟩ := ih hrest hm
          exact ⟨g, t, t', hg, ((adds_compileFunction f).gains hf).trans hgains, hy, he⟩
  | case3 _ rest ih => exact ih h hm
  | case4 => exact absurd h yields_refuse

/-- The names that are declared before a function of a source: by the sources before it, or by the
functions in front. -/
def declaredBefore (earlier : List String) (program : List Stmt) (i : Nat) : List String :=
  earlier.flatMap sourceLocals ++ ((functions program).take i).flatMap fun f => Stmt.allLocals f.body

/-- Of sources that are compiled one after another, every method uses its parameters, what it declares
further up, and locals that were declared before its function. Where the function declares no bound name
and no name that is in scope, the method declares no parameter and no variable that is in scope. -/
theorem allScoped_compile {names : Names} (hn : names.locals = []) (earlier : List String)
    {source : String} {t : Compiled} (h : (compile (takenBy names earlier) source).1 = .ok t) :
    ∃ program, parse source = .ok program ∧ ∀ i m, t.methods[i]? = some m →
      m.params = Code.renderParams ∧ ∃ f, (functions program)[i]? = some f ∧
      AllScoped (fun x => x ∈ paramNames ∨ ∃ name ∈ declaredBefore earlier program i,
        (compile (takenBy names earlier) source).2.locals.lookup name = some x) m.body ∧
      (Stmt.allDeclareNew CodeBlock.boundNames f.body → AllDeclareNew paramNames m.body) := by
  have hrenamed : Renamed names := by
    intro name given hl
    rw [hn] at hl
    cases hl
  have hfinal : Renamed (compile (takenBy names earlier) source).2 :=
    renamed_compile (renamed_takenBy hrenamed earlier) source
  obtain ⟨program, s', hp, hy, hs', -⟩ := yields_of_compile h
  rw [← hs'] at hfinal ⊢
  refine ⟨program, hp, fun i m hm => ⟨(compile_isCode h m (List.mem_of_getElem? hm)).params, ?_⟩⟩
  obtain ⟨f, u, u', hf, hgains, hyf, he⟩ := yields_of_getElem?_methods program hy hm
  refine ⟨f, hf, (allScoped_compileFunction hyf).mono ?_, allDeclareNew_compileFunction hfinal hyf he⟩
  rintro x (hb | ⟨key, hk⟩)
  · exact Or.inl (mem_paramNames_of_bound hb)
  · refine Or.inr ⟨key, ?_, ?_⟩
    · have hall := (gains_takenBy names earlier).trans hgains
      refine (hall.new key (by simp [Names.isLocal, hk])).resolve_left ?_
      simp [Names.isLocal, hn]
    · exact he key x (((adds_compileFunction f).gains hyf).kept key x hk)

/-- Sources before another: one that declares, one that is refused while it declares, and one that cannot
be read. -/
def priorSources : List String :=
  ["function(){ var x = 1; }", "function(){ var y = this; }", "function("]

/-- Uses of their locals, a name in two loops, and a function behind another. -/
def laterSource : String :=
  "function(){var z = x + y; for (var i = 0; i < z; i++) {var j = i;} for (var i = 1; i < 2; i++) {}} " ++
  "function(){return z;}"

theorem allScoped_compile_laterSource :
    ∃ t program, (compile (takenBy {} priorSources) laterSource).1 = .ok t ∧ t.methods.length = 2 ∧
      declaredBefore priorSources program 1 = ["x", "y", "z", "i", "j", "i"] ∧
      ∀ i m, t.methods[i]? = some m → AllDeclareNew paramNames m.body ∧
        AllScoped (fun x => x ∈ paramNames ∨ ∃ name ∈ declaredBefore priorSources program i,
          (compile (takenBy {} priorSources) laterSource).2.locals.lookup name = some x) m.body := by
  generalize hs : laterSource = source
  have hok : (compile (takenBy {} priorSources) source).1.toOption.any
        (fun t => t.methods.length = 2) ∧
      (parse source).toOption.any (fun program =>
        declaredBefore priorSources program 1 = ["x", "y", "z", "i", "j", "i"] &&
        (functions program).all fun f => Stmt.allDeclareNew CodeBlock.boundNames f.body) := by
    subst hs
    decide +kernel
  obtain ⟨t, h, htwo⟩ := exists_ok_of_any hok.1
  obtain ⟨program, hp, hscoped⟩ := allScoped_compile rfl priorSources h
  have hprogram := check_of_any hok.2 hp
  simp only [Bool.and_eq_true, decide_eq_true_eq] at hprogram
  refine ⟨t, program, h, of_decide_eq_true htwo, hprogram.1, fun i m hm => ?_⟩
  obtain ⟨-, f, hf, huses, hnew⟩ := hscoped i m hm
  exact ⟨hnew (List.all_eq_true.1 hprogram.2 f (List.mem_of_getElem? hf)), huses⟩

def returned? : List Code.Stmt → Option String
  | [.ret (some (.var x _ _))] => some x
  | _ => none

theorem mem_of_returned? {body : List Code.Stmt} {x : String} {known : String → Prop}
    (h : returned? body = some x) (hs : AllScoped known body) : known x := by
  unfold returned? at h
  split at h
  · next name type p =>
      cases h
      rw [Code.Stmt.allScoped_one] at hs
      exact hs _ rfl x type p rfl
  · cases h

/-- A local of one source is a variable of the next one, which does not declare it. -/
theorem not_allScoped_across :
    ∃ t m, (compile (takenBy {} ["function(){ var x = 1; }"]) "function(){ return x; }").1 = .ok t ∧
      m ∈ t.methods ∧ ¬ AllScoped (· ∈ paramNames) m.body := by
  generalize hn : takenBy {} ["function(){ var x = 1; }"] = names
  generalize hs : "function(){ return x; }" = source
  have hbody : (compile names source).1.toOption.any (fun t =>
      t.methods.any fun m => returned? m.body = some "x_1") := by
    subst hn hs
    decide +kernel
  obtain ⟨t, h, hbody⟩ := exists_ok_of_any hbody
  simp only [List.any_eq_true, decide_eq_true_eq] at hbody
  obtain ⟨m, hm, hbody⟩ := hbody
  refine ⟨t, m, h, hm, fun hscoped => ?_⟩
  have hparam : "x_1" ∈ paramNames := mem_of_returned? hbody hscoped
  exact absurd hparam (by decide)

end TwinView.Script
