import TwinView.Code.Class

/-!
All statements of a class: those of its methods and constructors, of the classes nested in it, and the
ones inside other statements.
-/

namespace TwinView.Code

mutual

def Stmt.withInner : Stmt → List Stmt
  | .cond test yes no => .cond test yes no :: (Stmt.allOf yes ++ Stmt.allOf no)
  | .loop init test step body =>
    .loop init test step body :: (Stmt.allOfOption init ++ Stmt.allOfOption step ++ Stmt.allOf body)
  | .expr e origin => [.expr e origin]
  | .var decl => [.var decl]
  | .vars decls => [.vars decls]
  | .ret value => [.ret value]
  | .comment value => [.comment value]

def Stmt.allOf : List Stmt → List Stmt
  | [] => []
  | s :: rest => s.withInner ++ Stmt.allOf rest

def Stmt.allOfOption : Option Stmt → List Stmt
  | none => []
  | some s => s.withInner

end

@[simp] theorem Stmt.allOf_append (a b : List Stmt) :
    Stmt.allOf (a ++ b) = Stmt.allOf a ++ Stmt.allOf b := by
  induction a with
  | nil => rfl
  | cons s rest ih => simp [Stmt.allOf, ih]

namespace Stmt

variable {Q : Stmt → Prop} {a b body : List Stmt} {test : Expr} {init step : Option Stmt}

theorem forall_allOf_append :
    (∀ s ∈ allOf (a ++ b), Q s) ↔ (∀ s ∈ allOf a, Q s) ∧ ∀ s ∈ allOf b, Q s := by
  rw [allOf_append, List.forall_mem_append]

theorem forall_allOf_expr {e : Expr} {origin : Origin} :
    (∀ s ∈ allOf [.expr e origin], Q s) ↔ Q (.expr e origin) := List.forall_mem_singleton

theorem forall_allOf_ret {value : Option Expr} : (∀ s ∈ allOf [.ret value], Q s) ↔ Q (.ret value) :=
  List.forall_mem_singleton

theorem forall_allOf_cond : (∀ s ∈ allOf [.cond test a b], Q s) ↔
    Q (.cond test a b) ∧ (∀ s ∈ allOf a, Q s) ∧ ∀ s ∈ allOf b, Q s := by
  simp only [allOf, withInner, List.append_nil, List.forall_mem_cons, List.forall_mem_append]

theorem forall_allOf_loop : (∀ s ∈ allOf [.loop init test step body], Q s) ↔
    Q (.loop init test step body) ∧ (∀ s ∈ allOf init.toList, Q s) ∧ (∀ s ∈ allOf step.toList, Q s) ∧
      ∀ s ∈ allOf body, Q s := by
  have hoption (o : Option Stmt) : allOf o.toList = allOfOption o := by
    cases o <;> simp [allOf, allOfOption]
  simp only [hoption, allOf, withInner, List.append_nil, List.forall_mem_cons, List.forall_mem_append,
    and_assoc]

theorem forall_allOf_step {e : Option Expr} :
    (∀ s ∈ allOf (e.map fun e => .expr e).toList, Q s) ↔ ∀ x ∈ e, Q (.expr x) := by
  cases e with
  | none => simp [allOf]
  | some e => exact forall_allOf_expr.trans (by simp)

end Stmt

mutual

def Member.stmts : Member → List Stmt
  | .method m => Stmt.allOf m.body
  | .field _ => []
  | .constructor c => Stmt.allOf c.body
  | .nested ⟨_, _, _, _, members⟩ => Member.stmtsOf members

def Member.stmtsOf : List Member → List Stmt
  | [] => []
  | m :: rest => m.stmts ++ Member.stmtsOf rest

end

def ClassOf.stmts (c : ClassDecl) : List Stmt := Member.stmtsOf c.members

@[simp] theorem Member.stmtsOf_append (a b : List Member) :
    Member.stmtsOf (a ++ b) = Member.stmtsOf a ++ Member.stmtsOf b := by
  induction a with
  | nil => rfl
  | cons m rest ih => simp [Member.stmtsOf, ih]

theorem Member.stmts_nested (c : ClassDecl) : (Member.nested c).stmts = c.stmts := by
  cases c
  rfl

theorem Member.mem_stmtsOf {s : Stmt} {members : List Member} :
    s ∈ Member.stmtsOf members ↔ ∃ m ∈ members, s ∈ m.stmts := by
  induction members with
  | nil => simp [Member.stmtsOf]
  | cons m rest ih => simp [Member.stmtsOf, ih]

/-- Changing one method leaves the statements of the others and puts in those of the new body. -/
theorem ClassOf.mem_stmtsOf_modifyFirst {name : String} {f : Method → Method} {s : Stmt}
    {members : List Member} (h : s ∈ Member.stmtsOf (modifyFirst name f members)) :
    s ∈ Member.stmtsOf members ∨ ∃ m, .method m ∈ members ∧ s ∈ Stmt.allOf (f m).body := by
  induction members with
  | nil => exact Or.inl h
  | cons m rest ih =>
      cases m with
      | method m =>
          unfold modifyFirst at h
          split at h
          · rcases List.mem_append.1 h with h | h
            · exact Or.inr ⟨m, List.mem_cons_self, h⟩
            · exact Or.inl (List.mem_append_right _ h)
          · rcases List.mem_append.1 h with h | h
            · exact Or.inl (List.mem_append_left _ h)
            · rcases ih h with h | ⟨m', hm, h⟩
              · exact Or.inl (List.mem_append_right _ h)
              · exact Or.inr ⟨m', List.mem_cons_of_mem _ hm, h⟩
      | field | constructor | nested =>
          rcases List.mem_append.1 h with h | h
          · exact Or.inl (List.mem_append_left _ h)
          · rcases ih h with h | ⟨m', hm, h⟩
            · exact Or.inl (List.mem_append_right _ h)
            · exact Or.inr ⟨m', List.mem_cons_of_mem _ hm, h⟩

end TwinView.Code
