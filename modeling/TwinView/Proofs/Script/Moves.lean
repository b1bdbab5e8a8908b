import Mathlib.Order.Defs.Unbundled
import TwinView.Proofs.Script.Yields

/-!
What compiling does to a scope. A relation between a scope and the later ones is shown where names are
compiled and taken; the rest of the syntax only puts such steps one behind the other, and a refusal stops
between them.
-/

namespace TwinView.Script

variable {α β : Type}

def headNames : Option Stmt → List String
  | some (.var _ decls) => decls.map (·.name)
  | _ => []

mutual

def Stmt.locals : Stmt → List String
  | .var _ decls => decls.map (·.name)
  | .block _ body => Stmt.allLocals body
  | .loop _ init _ _ body => headNames init ++ body.locals
  | .function _ ⟨_, _, body, _⟩ => Stmt.allLocals body
  | .expr _ _ | .ret _ _ | .empty _ => []

def Stmt.allLocals : List Stmt → List String
  | [] => []
  | st :: rest => st.locals ++ Stmt.allLocals rest

end

/-- The compiler takes every scope to one that is in the relation to it, also if it refuses. -/
def Moves (R : Scope → Scope → Prop) (x : Compile α) : Prop := ∀ s, R s (x.run.run s).2

section Rules

variable {R : Scope → Scope → Prop} {x : Compile α} {f : α → Compile β}

theorem Moves.of_yields (h : Moves R x) {s s' : Scope} {a : α} (hy : Yields x s a s') : R s s' := by
  have hs := h s
  rwa [hy] at hs

variable [IsPreorder Scope R]

theorem Moves.pure (a : α) : Moves R (pure a) := fun s => refl_of R s

theorem Moves.refuse (fault : ScriptFault) (i : Nat) : Moves R (refuse fault i : Compile α) :=
  fun s => refl_of R s

theorem Moves.bind (hx : Moves R x) (hf : ∀ a, Moves R (f a)) : Moves R (x >>= f) := by
  intro s
  have h := hx s
  rw [run_bind]
  generalize x.run.run s = r at h ⊢
  obtain ⟨r, s'⟩ := r
  cases r with
  | error e => exact h
  | ok a => exact trans_of R h (hf a s')

/-- A name is renamed if it is declared or a local, and is noted otherwise, unless it is bound. -/
theorem moves_compileName {usage : Usage} {name : String} (hnote : Moves R (noteExtra name usage))
    (hlocal : ∀ s, usage = .declare ∨ s.names.isLocal name →
      R s { s with names := (s.names.rename name).2 }) : Moves R (compileName usage name) := by
  unfold compileName
  split
  · split
    iterate 3 exact .pure _
    exact hnote
  · split
    iterate 4 exact .pure _
    intro s
    rw [run_get_bind]
    split
    · next h => exact hlocal s (by simpa using h)
    · exact hnote s

end Rules

section Walk

variable {R : Scope → Scope → Prop} [IsPreorder Scope R]

def UsedMove (R : Scope → Scope → Prop) : Prop :=
  ∀ usage name, usage ≠ .declare → Moves R (compileName usage name)

mutual

/-- An expression only uses names, by induction on the syntax. -/
theorem moves_compileExpr (hused : UsedMove R) : ∀ e : Expr, Moves R (compileExpr e)
  | .name _ name => hused .read name nofun
  | .number _ _ | .text _ _ | .bool _ _ | .null _ => .pure _
  | .this _ | .comma _ _ | .function _ _ => .refuse _ _
  | .parens _ inner => (moves_compileExpr hused inner).bind fun _ => .pure _
  | .member _ target _ => (moves_compileExpr hused target).bind fun _ => .pure _
  | .index _ target key => (moves_compileExpr hused target).bind fun _ =>
      (moves_compileExpr hused key).bind fun _ => .pure _
  | .call _ target args => by
      unfold compileExpr
      refine (moves_compileExpr hused target).bind fun callee => ?_
      split
      · exact .refuse _ _
      · refine (moves_compileExprs hused args).bind fun _ => ?_
        split
        · exact .pure _
        · exact .refuse _ _
  | .new i target args => by
      obtain ⟨-, -, ⟨arg, x, -, -, ⟨size, h⟩ | h⟩ | h⟩ | h := compileExpr_new i target args
      · rw [h]
        exact .pure _
      · rw [h]
        exact .refuse _ _
      · rw [h]
        exact (moves_compileExprs hused args).bind fun _ => .pure _
      · rw [h]
        exact .refuse _ _
  | .unary _ _ operand => (moves_compileExpr hused operand).bind fun _ => .pure _
  | .typeOf _ operand => (moves_compileExpr hused operand).bind fun _ => .pure _
  | .binary _ op left right => by
      have hrest (l : Code.Expr) : Moves R
          (compileExpr right >>= fun r => pure (Code.Expr.lowerBinary op l r)) :=
        (moves_compileExpr hused right).bind fun _ => .pure _
      unfold compileExpr
      dsimp only
      split
      · exact (hused _ _ (by split <;> simp)).bind hrest
      · exact (moves_compileExpr hused left).bind hrest
  | .isIn _ key target => (moves_compileExpr hused key).bind fun _ =>
      (moves_compileExpr hused target).bind fun _ => .pure _
  | .instanceOf _ target type => by
      unfold compileExpr
      refine (moves_compileExpr hused target).bind fun _ => ?_
      split
      · split
        · exact .pure _
        · exact .refuse _ _
      · exact .refuse _ _
  | .cond _ test yes no => (moves_compileExpr hused test).bind fun _ =>
      (moves_compileExpr hused yes).bind fun _ => (moves_compileExpr hused no).bind fun _ => .pure _
  | .object _ props => (moves_compileProps hused props).bind fun _ => .pure _
  | .array _ items => (moves_compileExprs hused items).bind fun _ => .pure _

theorem moves_compileExprs (hused : UsedMove R) : ∀ es : List Expr, Moves R (compileExprs es)
  | [] => .pure _
  | e :: rest => (moves_compileExpr hused e).bind fun _ =>
      (moves_compileExprs hused rest).bind fun _ => .pure _

theorem moves_compileProps (hused : UsedMove R) :
    ∀ props : List (PropertyKey × Expr), Moves R (compileProps props)
  | [] => .pure _
  | (_, value) :: rest => (moves_compileExpr hused value).bind fun _ =>
      (moves_compileProps hused rest).bind fun _ => .pure _

end

theorem moves_compileOption (hused : UsedMove R) (e : Option Expr) : Moves R (compileOption e) := by
  cases e with
  | none => exact .pure _
  | some e => exact (moves_compileExpr hused e).bind fun _ => .pure _

theorem moves_compileTest (hused : UsedMove R) (e : Option Expr) : Moves R (compileTest e) := by
  cases e with
  | none => exact .pure _
  | some e => exact moves_compileExpr hused e

theorem moves_compileDecl (hused : UsedMove R) {d : Decl}
    (hd : Moves R (compileName .declare d.name)) : Moves R (compileDecl d) := by
  refine hd.bind fun r => ?_
  split
  · exact (moves_compileOption hused d.init).bind fun _ => .pure _
  · exact .refuse _ _

theorem moves_compileDecls (hused : UsedMove R) (ds : List Decl)
    (hd : ∀ name ∈ ds.map (·.name), Moves R (compileName .declare name)) :
    Moves R (compileDecls ds) := by
  induction ds with
  | nil => exact .pure _
  | cons d rest ih =>
      obtain ⟨hd, hrest⟩ := List.forall_mem_cons.1 hd
      exact (moves_compileDecl hused hd).bind fun _ => (ih hrest).bind fun _ => .pure _

theorem moves_compileHead (hused : UsedMove R) (init : Option Stmt)
    (hd : ∀ name ∈ headNames init, Moves R (compileName .declare name)) :
    Moves R (compileHead init) := by
  unfold compileHead
  split
  · exact (moves_compileExpr hused _).bind fun _ => .pure _
  · exact (moves_compileDecls hused _ hd).bind fun _ => .pure _
  · exact .pure _

mutual

theorem moves_compileStmt (hused : UsedMove R) : ∀ st : Stmt,
    (∀ name ∈ st.locals, Moves R (compileName .declare name)) → Moves R (compileStmt st)
  | .expr _ e, _ => (moves_compileExpr hused e).bind fun _ => .pure _
  | .var _ decls, hd => (moves_compileDecls hused decls hd).bind fun _ => .pure _
  | .ret _ none, _ => .pure _
  | .ret _ (some e), _ => (moves_compileExpr hused e).bind fun _ => .pure _
  | .block _ body, hd => moves_compileStmts hused body hd
  | .loop _ init test update body, hd => by
      obtain ⟨hhead, hbody⟩ := List.forall_mem_append.1 hd
      unfold compileStmt
      refine (moves_compileHead hused init hhead).bind fun _ => ?_
      refine (moves_compileTest hused test).bind fun _ => ?_
      refine (moves_compileOption hused update).bind fun _ => ?_
      cases body with
      | block _ stmts => exact (moves_compileStmts hused stmts hbody).bind fun _ => .pure _
      | _ => exact .refuse _ _
  | .function _ _, _ => .refuse _ _
  | .empty _, _ => .pure _

theorem moves_compileStmts (hused : UsedMove R) : ∀ body : List Stmt,
    (∀ name ∈ Stmt.allLocals body, Moves R (compileName .declare name)) → Moves R (compileStmts body)
  | [], _ => .pure _
  | st :: rest, hd => by
      obtain ⟨hst, hrest⟩ := List.forall_mem_append.1 hd
      exact (moves_compileStmt hused st hst).bind fun _ =>
        (moves_compileStmts hused rest hrest).bind fun _ => .pure _

end

variable (hused : UsedMove R) (hnew : Moves R (newName "code_"))

include hused hnew

theorem moves_compileFunction (f : Function)
    (hd : ∀ name ∈ Stmt.allLocals f.body, Moves R (compileName .declare name)) :
    Moves R (compileFunction f) :=
  hnew.bind fun _ => (moves_compileStmts hused f.body hd).bind fun _ => .pure _

theorem moves_compileProgram : ∀ program : List Stmt,
    (∀ name ∈ Stmt.allLocals program, Moves R (compileName .declare name)) →
    Moves R (compileProgram program)
  | [], _ => .pure _
  | .function _ f :: rest, hd => by
      obtain ⟨hf, hrest⟩ := List.forall_mem_append.1 hd
      exact (moves_compileFunction hused hnew f hf).bind fun _ =>
        (moves_compileProgram rest hrest).bind fun _ => .pure _
  | .empty _ :: rest, hd => moves_compileProgram rest hd
  | .expr _ _ :: _, _ | .var _ _ :: _, _ | .ret _ _ :: _, _ | .block _ _ :: _, _
  | .loop _ _ _ _ _ :: _, _ => .refuse _ _

end Walk

end TwinView.Script
