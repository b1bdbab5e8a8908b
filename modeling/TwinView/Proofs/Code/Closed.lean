import TwinView.Proofs.Code.Members
import TwinView.Proofs.Code.Naming
import TwinView.Proofs.Code.Statements
import TwinView.Proofs.Code.Subterms

/-!
Closed classes. The members of a closed class have names of their own; whatever its methods call, read
and construct of the class itself is a member of it, and every variable that they use is a parameter
or was declared before, under a name that the method uses for nothing else.
-/

namespace TwinView.Code

/-- What code refers to by name: a variable, or a member of its class. -/
inductive Ref
  | var (name : String)
  | method (name : String)
  | field (name : String)
  | part (name : String)
deriving DecidableEq, Repr

namespace Ref

def name : Ref → String
  | .var name | .method name | .field name | .part name => name

def isVar : Ref → Bool
  | .var _ => true
  | _ => false

end Ref

/-- Whether this is the name of a method that is generated, and not of an inherited one. -/
def isGenerated (method : String) : Bool :=
  unnumbered method = "render_" || unnumbered method = "code_"

def constructed (args : List Expr) : List String :=
  args.filterMap fun
    | .create name _ _ => some name
    | _ => none

/-- What an expression itself refers to, the ones inside it aside. New objects are parts where they are
handed to the method that takes parts or to the constructor of a view. -/
def Expr.refs : Expr → List Ref
  | .var name _ _ => [.var name]
  | .field (.this _) name _ _ => [.field name]
  | .invoke _ (.this _) method args _ =>
    (if isGenerated method then [.method method] else []) ++
      (if method = "addPart" then (constructed args).map .part else [])
  | .create _ args _ => (constructed args).map .part
  | _ => []

def Expr.Resolved (known : Ref → Prop) (e : Expr) : Prop := e.Every fun x => ∀ r ∈ x.refs, known r

def Stmt.declared : Stmt → List String
  | .var d => [d.name]
  | .vars ds => ds.map (·.name)
  | _ => []

def Stmt.allDeclared (body : List Stmt) : List String := (Stmt.allOf body).flatMap Stmt.declared

def behind (known : Ref → Prop) (stmts : List Stmt) (r : Ref) : Prop :=
  known r ∨ ∃ name ∈ stmts.flatMap Stmt.declared, r = .var name

mutual

/-- Everything that a statement refers to is known where it stands. What the head of a loop declares is
known in the loop. -/
def Stmt.Resolved (known : Ref → Prop) : Stmt → Prop
  | .expr e _ => e.Resolved known
  | .var d => ∀ e ∈ d.init, e.Resolved known
  | .vars ds => ∀ d ∈ ds, ∀ e ∈ d.init, e.Resolved known
  | .cond test yes no =>
    test.Resolved known ∧ Stmt.AllResolved known yes ∧ Stmt.AllResolved known no
  | .loop init test step body =>
    Stmt.OptionResolved known init ∧ test.Resolved (behind known init.toList) ∧
    Stmt.OptionResolved (behind known init.toList) step ∧
    Stmt.AllResolved (behind known init.toList) body
  | .ret value => ∀ e ∈ value, e.Resolved known
  | .comment _ => True

def Stmt.OptionResolved (known : Ref → Prop) : Option Stmt → Prop
  | none => True
  | some st => st.Resolved known

def Stmt.AllResolved (known : Ref → Prop) : List Stmt → Prop
  | [] => True
  | st :: rest => st.Resolved known ∧ Stmt.AllResolved (behind known [st]) rest

end

def Method.Known (m : Method) (known : Ref → Prop) (r : Ref) : Prop :=
  known r ∨ ∃ p ∈ m.params, r = .var p.name

/-- Everything that a method refers to is known, and none of its declarations repeats another one or a
parameter. -/
structure Method.Closed (known : Ref → Prop) (m : Method) : Prop where
  resolved : Stmt.AllResolved (m.Known known) m.body
  distinct : (m.params.map (·.name) ++ Stmt.allDeclared m.body).Nodup

/-- The member is what the reference means. A method that is called takes the parameters of
rendering. -/
def Member.Answers : Member → Ref → Prop
  | .method m, .method name => m.name = name ∧ m.params = renderParams
  | .field f, .field name => f.name = name
  | .nested c, .part name => c.name = name
  | _, _ => False

/-- Exactly one of the members has the name, and it is what the reference means. -/
def Resolves (members : List Member) (r : Ref) : Prop :=
  ∃ m, members.filter (·.name? = some r.name) = [m] ∧ m.Answers r

mutual

/-- A member of a closed class. A class nested in it is closed on its own. -/
def Member.Closed (known : Ref → Prop) : Member → Prop
  | .method m => m.Closed known
  | .nested ⟨_, _, _, _, members⟩ =>
    (members.filterMap Member.name?).Nodup ∧ Member.AllClosed (Resolves members) members
  | .field _ | .constructor _ => True

def Member.AllClosed (known : Ref → Prop) : List Member → Prop
  | [] => True
  | m :: rest => m.Closed known ∧ Member.AllClosed known rest

end

/-- The members have names of their own, and nothing is missing. -/
structure ClassOf.Closed (c : ClassDecl) : Prop where
  distinct : c.Distinct
  members : Member.AllClosed (Resolves c.members) c.members

variable {known known' : Ref → Prop}

mutual

theorem Expr.Every.mono {P Q : Expr → Prop} (h : ∀ e, P e → Q e) : ∀ {e : Expr}, e.Every P → e.Every Q
  | .prim _ _, he | .var _ _ _, he | .this _, he | .typeRef _ _, he | .extra _ _, he => h _ he
  | .property _ _ _, ⟨he, ht, hk⟩ => ⟨h _ he, ht.mono h, hk.mono h⟩
  | .field _ _ _ _, ⟨he, ht⟩ => ⟨h _ he, ht.mono h⟩
  | .binary _ _ _ _, ⟨he, hl, hr⟩ => ⟨h _ he, hl.mono h, hr.mono h⟩
  | .unary _ _ _, ⟨he, ho⟩ => ⟨h _ he, ho.mono h⟩
  | .ternary _ _ _ _, ⟨he, ht, hy, hn⟩ => ⟨h _ he, ht.mono h, hy.mono h, hn.mono h⟩
  | .invoke _ _ _ _ _, ⟨he, ht, ha⟩ => ⟨h _ he, ht.mono h, ha.mono h⟩
  | .create _ _ _, ⟨he, ha⟩ => ⟨h _ he, ha.mono h⟩
  | .array _ _ _ _, ⟨he, ha⟩ => ⟨h _ he, ha.mono h⟩
  | .cast _ _ _, ⟨he, ho⟩ => ⟨h _ he, ho.mono h⟩

theorem Expr.EveryOf.mono {P Q : Expr → Prop} (h : ∀ e, P e → Q e) :
    ∀ {es : List Expr}, Expr.EveryOf P es → Expr.EveryOf Q es
  | [], _ => True.intro
  | _ :: _, ⟨he, hs⟩ => ⟨he.mono h, hs.mono h⟩

end

theorem Expr.Resolved.mono {e : Expr} (he : e.Resolved known) (h : ∀ r, known r → known' r) :
    e.Resolved known' := Expr.Every.mono (fun _ hx r hr => h r (hx r hr)) he

theorem behind_mono {stmts : List Stmt} (h : ∀ r, known r → known' r) {r : Ref}
    (hr : behind known stmts r) : behind known' stmts r := hr.imp_left (h r)

theorem behind_append (known : Ref → Prop) (a b : List Stmt) :
    behind (behind known a) b = behind known (a ++ b) := by
  funext r
  simp only [behind, List.flatMap_append, List.mem_append, or_and_right, exists_or, or_assoc]

theorem behind_nil (known : Ref → Prop) : behind known [] = known := by
  funext r
  simp [behind]

namespace Stmt

mutual

theorem Resolved.mono {known known' : Ref → Prop} (h : ∀ r, known r → known' r) :
    ∀ {st : Stmt}, st.Resolved known → st.Resolved known'
  | .expr _ _, he => Expr.Resolved.mono he h
  | .var _, hd => fun e he => (hd e he).mono h
  | .vars _, hds => fun d hd e he => (hds d hd e he).mono h
  | .cond _ _ _, ⟨ht, hy, hn⟩ => ⟨ht.mono h, hy.mono h, hn.mono h⟩
  | .loop _ _ _ _, ⟨hi, ht, hs, hb⟩ =>
      ⟨hi.mono h, ht.mono fun _ => behind_mono h, hs.mono fun _ => behind_mono h,
        hb.mono fun _ => behind_mono h⟩
  | .ret _, hv => fun e he => (hv e he).mono h
  | .comment _, _ => True.intro

theorem OptionResolved.mono {known known' : Ref → Prop} (h : ∀ r, known r → known' r) :
    ∀ {st : Option Stmt}, OptionResolved known st → OptionResolved known' st
  | none, _ => True.intro
  | some _, hs => Resolved.mono h hs

theorem AllResolved.mono {known known' : Ref → Prop} (h : ∀ r, known r → known' r) :
    ∀ {body : List Stmt}, AllResolved known body → AllResolved known' body
  | [], _ => True.intro
  | _ :: _, ⟨hs, hb⟩ => ⟨hs.mono h, hb.mono fun _ => behind_mono h⟩

end

variable {a b yes no body : List Stmt}

theorem allResolved_append :
    AllResolved known (a ++ b) ↔ AllResolved known a ∧ AllResolved (behind known a) b := by
  induction a generalizing known with
  | nil => simp [AllResolved, behind_nil]
  | cons st rest ih => simp [AllResolved, ih, behind_append, and_assoc]

theorem AllResolved.append (ha : AllResolved known a) (hb : AllResolved known b) :
    AllResolved known (a ++ b) := allResolved_append.2 ⟨ha, hb.mono fun _ => Or.inl⟩

theorem allResolved_one {st : Stmt} : AllResolved known [st] ↔ st.Resolved known := by
  simp [AllResolved]

@[simp] theorem allDeclared_nil : allDeclared [] = [] := rfl

@[simp] theorem allDeclared_append (a b : List Stmt) :
    allDeclared (a ++ b) = allDeclared a ++ allDeclared b := by
  simp [allDeclared]

@[simp] theorem allDeclared_expr (e : Expr) (origin : Origin) : allDeclared [.expr e origin] = [] := by
  simp [allDeclared, allOf, withInner, declared]

@[simp] theorem allDeclared_cond (test : Expr) (yes no : List Stmt) :
    allDeclared [.cond test yes no] = allDeclared yes ++ allDeclared no := by
  simp [allDeclared, allOf, withInner, declared]

end Stmt

theorem Method.Closed.mono {m : Method} (hm : m.Closed known) (h : ∀ r, known r → known' r) :
    m.Closed known' := ⟨hm.resolved.mono fun r => Or.imp_left (h r), hm.distinct⟩

theorem Member.Closed.mono {m : Member} (hm : m.Closed known) (h : ∀ r, known r → known' r) :
    m.Closed known' := by
  cases m with
  | method m => exact Method.Closed.mono hm h
  | field | constructor => exact True.intro
  | nested c => exact hm

theorem Member.allClosed_iff {members : List Member} :
    Member.AllClosed known members ↔ ∀ m ∈ members, m.Closed known := by
  induction members with
  | nil => simp [Member.AllClosed]
  | cons m rest ih => simp [Member.AllClosed, ih]

theorem Member.closed_nested (c : ClassDecl) : (Member.nested c).Closed known ↔ c.Closed := by
  cases c
  exact ⟨fun h => ⟨h.1, h.2⟩, fun h => ⟨h.distinct, h.members⟩⟩

variable {c : ClassDecl} {m : Member} {r : Ref}

theorem Member.Answers.name? (h : m.Answers r) : m.name? = some r.name := by
  cases m <;> cases r <;> simp_all [Member.Answers, Member.name?, Member.name, Ref.name]

/-- Where names are different, a member that answers is the only one of its name. -/
theorem Resolves.of_mem (hc : c.Distinct) (hm : m ∈ c.members) (h : m.Answers r) :
    Resolves c.members r := by
  refine ⟨m, ?_, h⟩
  unfold ClassOf.Distinct ClassOf.names at hc
  generalize c.members = members at hc hm
  induction members with
  | nil => cases hm
  | cons first rest ih =>
      have hrest := ClassOf.nodup_names_tail hc
      rcases List.mem_cons.1 hm with rfl | hm'
      · have hnone : rest.filter (·.name? = some r.name) = [] := by
          rw [List.filter_eq_nil_iff]
          intro m' hm' he
          rw [List.filterMap_cons_some h.name?] at hc
          exact (List.nodup_cons.1 hc).1 (List.mem_filterMap.2 ⟨m', hm', by simpa using he⟩)
        simp [h.name?, hnone]
      · have hne : first.name? ≠ some r.name := by
          intro he
          rw [List.filterMap_cons_some he] at hc
          exact (List.nodup_cons.1 hc).1 (List.mem_filterMap.2 ⟨m, hm', h.name?⟩)
        simp [hne, ih hrest hm']

end TwinView.Code
