import TwinView.Proofs.Code.Closed

/-!
Variables in the text of a method: what is used is known or stands declared further up, and what is
declared is new where it stands. The first is about the order of the text alone. The second is about
scopes: what the head or the body of a loop declares ends with the loop.
-/

namespace TwinView.Code

variable {known known' : String → Prop}

def Expr.Knows (known : String → Prop) (e : Expr) : Prop :=
  e.Every fun x => ∀ name type p, x = .var name type p → known name

theorem Expr.Knows.mono {e : Expr} (h : e.Knows known) (hk : ∀ name, known name → known' name) :
    e.Knows known' :=
  Expr.Every.mono (fun _ hx name type p he => hk name (hx name type p he)) h

theorem Expr.IsScriptCode.knows {e : Expr} (h : e.IsScriptCode known) : e.Knows known :=
  Expr.Every.mono (fun _ hx _ _ _ he => by subst he; exact hx) h

namespace Stmt

/-- What is known behind statements, when all that is declared in them counts. -/
def after (known : String → Prop) (stmts : List Stmt) (name : String) : Prop :=
  known name ∨ name ∈ allDeclared stmts

/-- Declarations from left to right. A name is known in its own initial value already. -/
def DeclsScoped (known : String → Prop) : List VarDecl → Prop
  | [] => True
  | d :: rest =>
    (∀ e ∈ d.init, e.Knows fun name => known name ∨ name = d.name) ∧
    DeclsScoped (fun name => known name ∨ name = d.name) rest

mutual

/-- Every variable of a statement is known, or declared further up in its text. -/
def Scoped (known : String → Prop) : Stmt → Prop
  | .expr e _ => e.Knows known
  | .var d => DeclsScoped known [d]
  | .vars ds => DeclsScoped known ds
  | .cond test yes no => test.Knows known ∧ AllScoped known yes ∧ AllScoped (after known yes) no
  | .loop init test step body =>
    OptionScoped known init ∧ test.Knows (after known init.toList) ∧
    OptionScoped (after known init.toList) step ∧ AllScoped (after known init.toList) body
  | .ret value => ∀ e ∈ value, e.Knows known
  | .comment _ => True

def OptionScoped (known : String → Prop) : Option Stmt → Prop
  | none => True
  | some st => st.Scoped known

def AllScoped (known : String → Prop) : List Stmt → Prop
  | [] => True
  | st :: rest => st.Scoped known ∧ AllScoped (after known [st]) rest

end

def AreNew (scope names : List String) : Prop := names.Nodup ∧ ∀ name ∈ names, name ∉ scope

instance (scope names : List String) : Decidable (AreNew scope names) :=
  inferInstanceAs (Decidable (_ ∧ _))

mutual

def DeclaresNew (scope : List String) : Stmt → Prop
  | .var d => AreNew scope [d.name]
  | .vars ds => AreNew scope (ds.map (·.name))
  | .cond _ yes no => AllDeclareNew scope yes ∧ AllDeclareNew scope no
  | .loop init _ step body =>
    OptionDeclaresNew scope init ∧
    OptionDeclaresNew (scope ++ init.toList.flatMap declared) step ∧
    AllDeclareNew (scope ++ init.toList.flatMap declared) body
  | .expr _ _ | .ret _ | .comment _ => True

def OptionDeclaresNew (scope : List String) : Option Stmt → Prop
  | none => True
  | some st => st.DeclaresNew scope

def AllDeclareNew (scope : List String) : List Stmt → Prop
  | [] => True
  | st :: rest => st.DeclaresNew scope ∧ AllDeclareNew (scope ++ st.declared) rest

end

theorem after_mono {stmts : List Stmt} (h : ∀ name, known name → known' name) {name : String}
    (hn : after known stmts name) : after known' stmts name := hn.imp_left (h name)

theorem DeclsScoped.mono {ds : List VarDecl} (h : DeclsScoped known ds)
    (hk : ∀ name, known name → known' name) : DeclsScoped known' ds := by
  induction ds generalizing known known' with
  | nil => exact True.intro
  | cons d rest ih =>
      have hk' : ∀ name, known name ∨ name = d.name → known' name ∨ name = d.name :=
        fun name => Or.imp_left (hk name)
      exact ⟨fun e he => (h.1 e he).mono hk', ih h.2 hk'⟩

mutual

theorem Scoped.mono {known known' : String → Prop} (h : ∀ name, known name → known' name) :
    ∀ {st : Stmt}, st.Scoped known → st.Scoped known'
  | .expr _ _, he => Expr.Knows.mono he h
  | .var _, hd => DeclsScoped.mono hd h
  | .vars _, hds => DeclsScoped.mono hds h
  | .cond _ _ _, ⟨ht, hy, hn⟩ => ⟨ht.mono h, hy.mono h, hn.mono fun _ => after_mono h⟩
  | .loop _ _ _ _, ⟨hi, ht, hs, hb⟩ =>
      ⟨hi.mono h, ht.mono fun _ => after_mono h, hs.mono fun _ => after_mono h,
        hb.mono fun _ => after_mono h⟩
  | .ret _, hv => fun e he => (hv e he).mono h
  | .comment _, _ => True.intro

theorem OptionScoped.mono {known known' : String → Prop} (h : ∀ name, known name → known' name) :
    ∀ {st : Option Stmt}, OptionScoped known st → OptionScoped known' st
  | none, _ => True.intro
  | some _, hs => Scoped.mono h hs

theorem AllScoped.mono {known known' : String → Prop} (h : ∀ name, known name → known' name) :
    ∀ {body : List Stmt}, AllScoped known body → AllScoped known' body
  | [], _ => True.intro
  | _ :: _, ⟨hs, hb⟩ => ⟨hs.mono h, hb.mono fun _ => after_mono h⟩

end

theorem after_append (known : String → Prop) (a b : List Stmt) :
    after (after known a) b = after known (a ++ b) := by
  funext name
  simp [after, or_assoc]

theorem after_nil (known : String → Prop) : after known [] = known := by
  funext name
  simp [after]

theorem allScoped_append {a b : List Stmt} :
    AllScoped known (a ++ b) ↔ AllScoped known a ∧ AllScoped (after known a) b := by
  induction a generalizing known with
  | nil => simp [AllScoped, after_nil]
  | cons st rest ih => simp [AllScoped, ih, after_append, and_assoc]

theorem allScoped_one {st : Stmt} : AllScoped known [st] ↔ st.Scoped known := by
  simp [AllScoped]

theorem allDeclareNew_append {scope : List String} {a b : List Stmt} :
    AllDeclareNew scope (a ++ b) ↔
      AllDeclareNew scope a ∧ AllDeclareNew (scope ++ a.flatMap declared) b := by
  induction a generalizing scope with
  | nil => simp [AllDeclareNew]
  | cons st rest ih => simp [AllDeclareNew, ih, and_assoc]

theorem allDeclareNew_one {scope : List String} {st : Stmt} :
    AllDeclareNew scope [st] ↔ st.DeclaresNew scope := by
  simp [AllDeclareNew]

theorem allDeclared_loop (init : Option Stmt) (test : Expr) (step : Option Expr) (body : List Stmt) :
    allDeclared [.loop init test (step.map fun e => .expr e) body] =
      allDeclared init.toList ++ allDeclared body := by
  cases init <;> cases step <;>
    simp [allDeclared, allOf, withInner, allOfOption, declared]

end Stmt

end TwinView.Code
