import TwinView.Proofs.Code.Renaming
import TwinView.Server.Builder

/-!
Running the methods of a class that render. What a script computes is not looked into: a world tells
the value of every piece of code in every binding of the parameters. The rest, that is the conditions,
the loops with their variables, the calls of other methods and the output, is run as it stands.
-/

namespace TwinView.Server

open Code

/-- What a method that renders is given. -/
structure Binding (ν : Type) where
  data : ν
  index : Int
  count : Int
  key : Option ν

mutual

def codeCalls : Expr → List String
  | .prim _ _ | .var _ _ _ | .this _ | .typeRef _ _ | .extra _ _ => []
  | .property target key _ => codeCalls target ++ codeCalls key
  | .field target _ _ _ => codeCalls target
  | .binary _ left right _ => codeCalls left ++ codeCalls right
  | .unary _ operand _ => codeCalls operand
  | .ternary test yes no _ => codeCalls test ++ codeCalls yes ++ codeCalls no
  | .invoke _ target method args _ =>
    (if unnumbered method = "code_" then [method] else []) ++ codeCalls target ++ codeCallsOf args
  | .create _ args _ => codeCallsOf args
  | .array _ _ items _ => codeCallsOf items
  | .cast _ operand _ => codeCalls operand

def codeCallsOf : List Expr → List String
  | [] => []
  | e :: rest => codeCalls e ++ codeCallsOf rest

end

/-- A piece of code that stands for itself: an expression and the bodies of the methods it calls, all
without numbers. -/
structure Term where
  expr : Expr
  bodies : List (List Stmt)

def termOf (find : String → Option Method) (e : Expr) : Term where
  expr := e.unnumber
  bodies := (codeCalls e).filterMap fun name => (find name).map fun m => Stmt.unnumberAll m.body

/-- The values of all code in all bindings. -/
structure World (ν : Type) where
  truth : Term → Binding ν → Bool
  whole : Term → Binding ν → Int
  object : Term → Binding ν → ν
  items : Term → Binding ν → List ν
  /-- The keys of a map with their values. -/
  entries : Term → Binding ν → List (ν × ν)
  truth_true : ∀ b, truth ⟨.bool true, []⟩ b = true
  whole_int : ∀ n b, whole ⟨.int n, []⟩ b = n
  object_data : ∀ b, object ⟨.variableRef .object "data", []⟩ b = b.data

/-- A world where every test holds and there is nothing to loop over. -/
instance {ν : Type} : Inhabited (World ν) where
  default := {
    truth := fun _ _ => true
    whole := fun t _ =>
      match t.expr with
      | .prim (.int n) _ => n
      | _ => 0
    object := fun _ b => b.data
    items := fun _ _ => []
    entries := fun _ _ => []
    truth_true := fun _ => rfl
    whole_int := fun _ _ => rfl
    object_data := fun _ => rfl }

/-- One item of output: a character of markup, or the value of code under a binding, written as it is
or encoded. -/
inductive Event (ν : Type)
  | char (c : Char)
  | value (method : String) (code : Term) (binding : Binding ν)

/-- What an iterator runs over. -/
inductive Item (ν : Type)
  | object (value : ν)
  | entry (key value : ν)

inductive Val (ν : Type)
  | whole (n : Int)
  | item (x : Item ν)
  | collection (items : List (Item ν))
  | iterator (rest : List (Item ν))

abbrev Store (ν : Type) := List (String × Val ν)

variable {ν : Type}

/-- The output of a call that writes a value: the characters of known text, or else the value. -/
def written (find : String → Option Method) (b : Binding ν) (method : String) :
    Expr → List (Event ν)
  | .prim (.char c) p =>
    if method = "write" then [.char c] else [.value method (termOf find (.prim (.char c) p)) b]
  | .prim (.text s) p =>
    if method = "write" then s.toList.map .char
    else [.value method (termOf find (.prim (.text s) p)) b]
  | e => [.value method (termOf find e) b]

def nextItem (σ : Store ν) (name : String) : Option (Item ν × Store ν) :=
  match σ.lookup name with
  | some (.iterator (x :: rest)) => some (x, (name, .iterator rest) :: σ)
  | _ => none

section

variable (find : String → Option Method) (w : World ν) (b : Binding ν) (σ : Store ν)

def initial (type : Ty) (e : Expr) : Option (Val ν × Store ν) :=
  match type, e with
  | .collection, .invoke _ source "entrySet" [] _ =>
    some (.collection ((w.entries (termOf find source) b).map fun p => .entry p.1 p.2), σ)
  | .collection, e => some (.collection ((w.items (termOf find e) b).map .object), σ)
  | .iterator, .invoke _ (.var name _ _) "iterator" [] _ =>
    match σ.lookup name with
    | some (.collection items) => some (.iterator items, σ)
    | _ => none
  | .mapEntry, .cast _ (.invoke _ (.var name _ _) "next" [] _) _ =>
    (nextItem σ name).map fun p => (.item p.1, p.2)
  | .int, .invoke _ (.var name .collection _) "size" [] _ =>
    match σ.lookup name with
    | some (.collection items) => some (.whole items.length, σ)
    | _ => none
  | .int, e => some (.whole (w.whole (termOf find e) b), σ)
  | .object, e => some (.item (.object (w.object (termOf find e) b)), σ)
  | _, _ => none

def declareOne (d : VarDecl) : Option (Store ν) := do
  let e ← d.init
  let (v, σ') ← initial find w b σ d.type e
  return (d.name, v) :: σ'

end

def declareAll (find : String → Option Method) (w : World ν) (b : Binding ν) :
    Store ν → List VarDecl → Option (Store ν)
  | σ, [] => some σ
  | σ, d :: rest => do
    let σ' ← declareOne find w b σ d
    declareAll find w b σ' rest

/-- A statement that neither branches nor calls: its output and the variables after it. -/
def simpleStep (find : String → Option Method) (w : World ν) (b : Binding ν) (σ : Store ν) :
    Stmt → Option (List (Event ν) × Store ν)
  | .comment _ => some ([], σ)
  | .var d => (declareOne find w b σ d).map fun σ' => ([], σ')
  | .vars ds => (declareAll find w b σ ds).map fun σ' => ([], σ')
  | .expr (.unary .postIncrement (.var name _ _) _) _ =>
    match σ.lookup name with
    | some (.whole n) => some ([], (name, .whole (n + 1)) :: σ)
    | _ => none
  | .expr (.invoke .void (.this _) method [_, e] _) _ =>
    if method = "write" ∨ method = "htmlEncode" then some (written find b method e, σ) else none
  | _ => none

def loopTest (σ : Store ν) : Expr → Option Bool
  | .invoke _ (.var name _ _) "hasNext" [] _ =>
    match σ.lookup name with
    | some (.iterator rest) => some !rest.isEmpty
    | _ => none
  | .binary (.compare .less) (.var index _ _) (.var count _ _) _ =>
    match σ.lookup index, σ.lookup count with
    | some (.whole i), some (.whole n) => some (decide (i < n))
    | _, _ => none
  | _ => none

def loopData (σ : Store ν) : Expr → Option (ν × Store ν)
  | .var name _ _ =>
    match σ.lookup name with
    | some (.item (.object v)) => some (v, σ)
    | _ => none
  | .invoke _ (.var name _ _) "next" [] _ =>
    match nextItem σ name with
    | some (.object v, σ') => some (v, σ')
    | _ => none
  | .invoke _ (.var name _ _) "getValue" [] _ =>
    match σ.lookup name with
    | some (.item (.entry _ v)) => some (v, σ)
    | _ => none
  | _ => none

def wholeVar (σ : Store ν) : Expr → Option Int
  | .var name _ _ =>
    match σ.lookup name with
    | some (.whole n) => some n
    | _ => none
  | _ => none

def loopKey (σ : Store ν) : Expr → Option (Option ν)
  | .prim .null _ => some none
  | .invoke _ _ "coerceString" [.invoke _ (.var name _ _) "getKey" [] _] _ =>
    match σ.lookup name with
    | some (.item (.entry k _)) => some (some k)
    | _ => none
  | _ => none

def callBinding (σ : Store ν) : List Expr → Option (Binding ν × Store ν)
  | [_, data, index, count, key] => do
    let (data, σ') ← loopData σ data
    let index ← wholeVar σ' index
    let count ← wholeVar σ' count
    let key ← loopKey σ' key
    return ({ data, index, count, key }, σ')
  | _ => none

def calledMethod (find : String → Option Method) (σ : Store ν) :
    Stmt → Option (Method × Binding ν × Store ν)
  | .expr (.invoke .void (.this _) method args _) _ => do
    let m ← find method
    if m.params == renderParams then
      let (b, σ') ← callBinding σ args
      return (m, b, σ')
    else none
  | _ => none

/-- What is run: statements, or what is left of a loop. -/
inductive Task
  | stmts (body : List Stmt)
  | loop (test : Expr) (step : Stmt) (body : List Stmt)

/-- A task runs under a binding, puts something out and leaves the variables with other values. -/
inductive Exec (find : String → Option Method) (w : World ν) :
    Binding ν → Store ν → Task → List (Event ν) → Store ν → Prop
  | nil {b σ} : Exec find w b σ (.stmts []) [] σ
  | simple {b σ stmt rest out σ₁ out' σ₂} (h : simpleStep find w b σ stmt = some (out, σ₁))
      (hrest : Exec find w b σ₁ (.stmts rest) out' σ₂) :
      Exec find w b σ (.stmts (stmt :: rest)) (out ++ out') σ₂
  | call {b σ stmt rest m b₁ σ₁ out σ₂ out' σ₃} (hs : simpleStep find w b σ stmt = none)
      (h : calledMethod find σ stmt = some (m, b₁, σ₁))
      (hbody : Exec find w b₁ [] (.stmts m.body) out σ₂)
      (hrest : Exec find w b σ₁ (.stmts rest) out' σ₃) :
      Exec find w b σ (.stmts (stmt :: rest)) (out ++ out') σ₃
  | cond {b σ test yes no rest out σ₁ out' σ₂}
      (hbody : Exec find w b σ (.stmts (if w.truth (termOf find test) b then yes else no)) out σ₁)
      (hrest : Exec find w b σ₁ (.stmts rest) out' σ₂) :
      Exec find w b σ (.stmts (.cond test yes no :: rest)) (out ++ out') σ₂
  | loop {b σ init test step body rest out σ₁ out' σ₂ σ₃}
      (h : simpleStep find w b σ init = some ([], σ₁))
      (hloop : Exec find w b σ₁ (.loop test step body) out σ₂)
      (hrest : Exec find w b σ₂ (.stmts rest) out' σ₃) :
      Exec find w b σ (.stmts (.loop (some init) test (some step) body :: rest)) (out ++ out') σ₃
  | exit {b σ test step body} (h : loopTest σ test = some false) :
      Exec find w b σ (.loop test step body) [] σ
  | again {b σ test step body out σ₁ σ₂ out' σ₃} (h : loopTest σ test = some true)
      (hbody : Exec find w b σ (.stmts body) out σ₁)
      (hstep : simpleStep find w b σ₁ step = some ([], σ₂))
      (hloop : Exec find w b σ₂ (.loop test step body) out' σ₃) :
      Exec find w b σ (.loop test step body) (out ++ out') σ₃

variable {find : String → Option Method} {w : World ν} {b : Binding ν} {σ σ₁ σ₂ : Store ν}

theorem Exec.deterministic {t : Task} {out out' : List (Event ν)}
    (h : Exec find w b σ t out σ₁) (h' : Exec find w b σ t out' σ₂) : out = out' ∧ σ₁ = σ₂ := by
  induction h generalizing out' σ₂ with
  | nil =>
      cases h'
      exact ⟨rfl, rfl⟩
  | simple hs _ ih =>
      cases h' with
      | simple hs' hrest' =>
          rw [hs] at hs'
          cases hs'
          obtain ⟨rfl, rfl⟩ := ih hrest'
          exact ⟨rfl, rfl⟩
      | call hs' => simp [hs] at hs'
      | cond => cases hs
      | loop => cases hs
  | call hs hc _ _ ihb ih =>
      cases h' with
      | simple hs' => simp [hs] at hs'
      | call _ hc' hbody' hrest' =>
          rw [hc] at hc'
          cases hc'
          obtain ⟨rfl, rfl⟩ := ihb hbody'
          obtain ⟨rfl, rfl⟩ := ih hrest'
          exact ⟨rfl, rfl⟩
      | cond => cases hc
      | loop => cases hc
  | cond _ _ ihb ih =>
      cases h' with
      | simple hs' => cases hs'
      | call _ hc' => cases hc'
      | cond hbody' hrest' =>
          obtain ⟨rfl, rfl⟩ := ihb hbody'
          obtain ⟨rfl, rfl⟩ := ih hrest'
          exact ⟨rfl, rfl⟩
  | loop hs _ _ ihl ih =>
      cases h' with
      | simple hs' => cases hs'
      | call _ hc' => cases hc'
      | loop hs' hloop' hrest' =>
          rw [hs] at hs'
          cases hs'
          obtain ⟨rfl, rfl⟩ := ihl hloop'
          obtain ⟨rfl, rfl⟩ := ih hrest'
          exact ⟨rfl, rfl⟩
  | exit ht =>
      cases h' with
      | exit => exact ⟨rfl, rfl⟩
      | again ht' => simp [ht] at ht'
  | again ht _ hs _ ihb ih =>
      cases h' with
      | exit ht' => simp [ht] at ht'
      | again _ hbody' hs' hloop' =>
          obtain ⟨rfl, rfl⟩ := ihb hbody'
          rw [hs] at hs'
          cases hs'
          obtain ⟨rfl, rfl⟩ := ih hloop'
          exact ⟨rfl, rfl⟩

theorem Exec.append {first rest : List Stmt} {out out' : List (Event ν)}
    (h : Exec find w b σ (.stmts first) out σ₁) (h' : Exec find w b σ₁ (.stmts rest) out' σ₂) :
    Exec find w b σ (.stmts (first ++ rest)) (out ++ out') σ₂ := by
  generalize ht : Task.stmts first = t at h
  induction h generalizing first with
  | nil =>
      cases ht
      exact h'
  | simple hs _ ih =>
      cases ht
      rw [List.append_assoc]
      exact .simple hs (ih h' rfl)
  | call hs hc hbody _ _ ih =>
      cases ht
      rw [List.append_assoc]
      exact .call hs hc hbody (ih h' rfl)
  | cond hbody _ _ ih =>
      cases ht
      rw [List.append_assoc]
      exact .cond hbody (ih h' rfl)
  | loop hs hloop _ _ ih =>
      cases ht
      rw [List.append_assoc]
      exact .loop hs hloop (ih h' rfl)
  | exit | again => cases ht

theorem Exec.single {stmt : Stmt} {out : List (Event ν)}
    (h : simpleStep find w b σ stmt = some (out, σ₁)) :
    Exec find w b σ (.stmts [stmt]) out σ₁ := by
  have hexec : Exec find w b σ (.stmts [stmt]) (out ++ []) σ₁ := .simple h .nil
  rwa [List.append_nil] at hexec

/-- The class renders something: its method for that runs and puts it out. -/
def Renders (c : ClassDecl) (w : World ν) (b : Binding ν) (out : List (Event ν)) : Prop :=
  ∃ m σ, c.findMethod? "render" = some m ∧ Exec c.findMethod? w b [] (.stmts m.body) out σ

end TwinView.Server
