import TwinView.Proofs.Script.Results
import TwinView.Proofs.Server.Extends
import TwinView.Proofs.Template.Blocks

/-!
The sorts of statements that a builder generates. There are six of them, and every statement of a class
that is built is of one of these sorts; what holds of each sort therefore holds of every class.
-/

namespace TwinView.Server

open Code
open Script (IsScript IsCode AllScript)

variable {s : Settings} {blocks : List CodeBlock}

/-- What a generated statement is: code without output, markup that is known, the value of a block, a
literal link, an id, or a call of some other method. -/
inductive Emitted (s : Settings) (blocks : List CodeBlock) : Stmt → Prop
  | code {stmt : Stmt} (h : IsScript stmt) : Emitted s blocks stmt
  | markup (value : Primitive) {origin : Origin} (h : origin = .plain ∨ origin = .clientCall) :
      Emitted s blocks (write (.const value) origin)
  | value {b : CodeBlock} (hb : b ∈ blocks) {e : Expr} (he : e.HasValue) :
      Emitted s blocks (writeValue s b e)
  | link (url : String) : Emitted s blocks (writeSafe s (transformedUrl (.text url)))
  | id (name : String) : Emitted s blocks (write (.variableRef .string name))
  | call {method : String} (h : method ≠ "write") (args : List Expr) {origin : Origin}
      (ho : ∀ b, origin ≠ .value b) : Emitted s blocks (.expr (.invokeSelf .void method args) origin)

def AllEmitted (s : Settings) (blocks : List CodeBlock) (stmts : List Stmt) : Prop :=
  ∀ stmt ∈ Stmt.allOf stmts, Emitted s blocks stmt

theorem AllEmitted.append {a b : List Stmt} (ha : AllEmitted s blocks a)
    (hb : AllEmitted s blocks b) : AllEmitted s blocks (a ++ b) := Stmt.forall_allOf_append.2 ⟨ha, hb⟩

theorem AllEmitted.nil : AllEmitted s blocks [] := by
  intro stmt h
  cases h

theorem allEmitted_expr {e : Expr} {origin : Origin} (h : Emitted s blocks (.expr e origin)) :
    AllEmitted s blocks [.expr e origin] := Stmt.forall_allOf_expr.2 h

theorem allEmitted_cond {test : Expr} {yes no : List Stmt} (hy : AllEmitted s blocks yes)
    (hn : AllEmitted s blocks no) : AllEmitted s blocks [.cond test yes no] :=
  Stmt.forall_allOf_cond.2 ⟨.code True.intro, hy, hn⟩

theorem allEmitted_script {stmts : List Stmt} (h : AllScript stmts) : AllEmitted s blocks stmts :=
  fun stmt hs => .code (h stmt hs)

theorem allEmitted_flushed (d : Draft) : AllEmitted s blocks d.flushed := by
  unfold Draft.flushed
  split
  · exact .nil
  · exact allEmitted_expr (.markup _ (by split <;> simp))

theorem emitted_renderCall {method : String} (h : method ≠ "write") (args : List Expr)
    {origin : Origin} (ho : ∀ b, origin ≠ .value b) :
    AllEmitted s blocks [renderCall method args origin] := allEmitted_expr (.call h _ ho)

theorem allEmitted_writeData (e : Expr) : AllEmitted s blocks [writeData e] :=
  emitted_renderCall (by decide) _ (by simp)

theorem allEmitted_writeId (name : String) : AllEmitted s blocks [write (.variableRef .string name)] :=
  allEmitted_expr (.id name)

theorem allEmitted_writeValue {b : CodeBlock} (hb : b ∈ blocks) {e : Expr} (he : e.HasValue) :
    AllEmitted s blocks [writeValue s b e] := by
  have h := Emitted.value (s := s) hb he
  revert h
  unfold writeValue writeSafe
  dsimp only
  split
  · exact allEmitted_expr
  · split
    · exact allEmitted_expr
    · split
      · exact allEmitted_expr
      · exact allEmitted_expr

theorem hasValue_variableRef (name : String) :
    (Expr.variableRef .object name).HasValue :=
  ⟨by simp [Expr.variableRef, Expr.resultType], True.intro⟩

theorem hasValue_transformedUrl (e : Expr) : (transformedUrl e).HasValue :=
  .invoke _ _ _ (by simp)

theorem allEmitted_link (url : String) :
    AllEmitted s blocks [writeSafe s (transformedUrl (.text url))] :=
  allEmitted_expr (.link url)

def BuiltBranch.body : BuiltBranch → List Stmt
  | .tested _ body => body
  | .plain body => body

theorem allEmitted_chain {built : List BuiltBranch}
    (h : ∀ b ∈ built, AllEmitted s blocks b.body) : AllEmitted s blocks (chain built) := by
  induction built with
  | nil => exact .nil
  | cons b rest ih =>
      have hrest := ih fun b' hb => h b' (by simp [hb])
      cases b with
      | tested test body => exact allEmitted_cond (h (.tested test body) List.mem_cons_self) hrest
      | plain body => exact AllEmitted.append (h (.plain body) List.mem_cons_self) hrest

theorem allEmitted_loop {init step : Stmt} {test : Expr} {body : List Stmt}
    (hi : AllEmitted s blocks [init]) (hs : AllEmitted s blocks [step])
    (hb : AllEmitted s blocks body) :
    AllEmitted s blocks [.loop (some init) test (some step) body] := by
  intro stmt h
  simp only [Stmt.allOf, Stmt.withInner, Stmt.allOfOption, List.append_nil, List.mem_cons,
    List.mem_append] at h
  rcases h with rfl | (h | h) | h
  · exact .code True.intro
  · exact hi stmt (by simpa [Stmt.allOf] using h)
  · exact hs stmt (by simpa [Stmt.allOf] using h)
  · exact hb stmt h

theorem allEmitted_var (decl : VarDecl) : AllEmitted s blocks [.var decl] :=
  allEmitted_script (by simp [AllScript, Stmt.allOf, Stmt.withInner, IsScript])

theorem allEmitted_vars (decls : List VarDecl) : AllEmitted s blocks [.vars decls] :=
  allEmitted_script (by simp [AllScript, Stmt.allOf, Stmt.withInner, IsScript])

theorem allEmitted_increment (e : Expr) :
    AllEmitted s blocks [.expr (.apply .postIncrement e)] :=
  allEmitted_expr (.code ⟨.apply _ _, rfl⟩)

theorem allEmitted_call {method : String} (h : method ≠ "write") (args : List Expr) :
    AllEmitted s blocks [.expr (.invokeSelf .void method args)] :=
  allEmitted_expr (.call h _ (by simp))

theorem allEmitted_setFlag (name : String) :
    AllEmitted s blocks [.expr (.operate .assign (.variableRef .boolean name) (.bool true))] := by
  refine allEmitted_expr (.code ⟨.assign ⟨?_, True.intro⟩ (.constant _ _) fun _ => rfl, rfl⟩)
  simp [Expr.variableRef, Expr.resultType]

theorem allEmitted_setField (fieldName className : String) (args : List Expr) :
    AllEmitted s blocks [.expr (.operate .assign (.field .self fieldName .view false)
      (.create className args false))] := by
  refine allEmitted_expr (.code ⟨.assign ⟨by simp [Expr.resultType], True.intro⟩
    ⟨by simp [Expr.resultType], True.intro⟩ ?_, rfl⟩)
  simp [Expr.resultType, Ty.isPlain, Ty.isNumber, Ty.isBoolean, Ty.kind]

/-- The expression of compiled methods has a value, and what has to be added is code. -/
theorem inlined_isCode {m : Method} {rest : List Method} (hm : IsCode m)
    (hrest : ∀ m ∈ rest, IsCode m) (hreturns : m.returns ≠ .void) :
    (inlined m rest).1.HasValue ∧ ∀ added ∈ (inlined m rest).2, IsCode added := by
  unfold inlined
  cases he : m.inline? with
  | some e => exact ⟨hm.hasValue_of_inline? he, hrest⟩
  | none =>
      refine ⟨.invoke _ _ _ hreturns, ?_⟩
      intro m' hm'
      rcases List.mem_cons.1 hm' with rfl | hm'
      · exact hm
      · exact hrest m' hm'

end TwinView.Server
