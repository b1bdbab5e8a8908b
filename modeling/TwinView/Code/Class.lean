import TwinView.Code.Expr
import TwinView.Template.CodeBlock

/-!
Statements and members of the generated classes.
-/

namespace TwinView.Code

structure VarDecl where
  type : Ty
  name : String
  init : Option Expr := none
deriving BEq, Repr

def VarDecl.ref (d : VarDecl) : Expr := .variableRef d.type d.name

/-- What an expression statement was generated for. The written code does not show it. -/
inductive Origin
  | plain
  /-- It writes the value of a code block. -/
  | value (block : CodeBlock)
  /-- It writes markup in which a client script makes its call. -/
  | clientCall
  /-- It may render parts, given by the names of their classes. -/
  | parts (classes : List String)
deriving DecidableEq, Repr

inductive Stmt
  | expr (e : Expr) (origin : Origin := .plain)
  | var (decl : VarDecl)
  /-- Declarations that share the type of the first. -/
  | vars (decls : List VarDecl)
  | cond (test : Expr) (yes no : List Stmt)
  | loop (init : Option Stmt) (test : Expr) (step : Option Stmt) (body : List Stmt)
  | ret (value : Option Expr)
  | comment (value : String)
deriving BEq, Repr

structure Param where
  type : Ty
  name : String
  varArgs : Bool := false
deriving BEq, Repr

def Param.ref (p : Param) : Expr := .variableRef p.type p.name

structure Method where
  access : Access
  returns : Ty
  name : String
  params : List Param
  body : List Stmt := []
  throws : List Ty := []
  overrides : Bool := false
deriving BEq, Repr

structure Field where
  access : Access
  type : Ty
  name : String
deriving BEq, Repr

structure Constructor where
  access : Access
  params : List Param
  /-- Arguments handed to the constructor of the base class. -/
  baseArgs : List Expr := []
  body : List Stmt := []
deriving BEq, Repr

structure ClassOf (μ : Type) where
  access : Access
  package : Option String := none
  name : String
  base : Ty
  members : List μ := []
deriving BEq, Repr

inductive Member
  | method (m : Method)
  | field (f : Field)
  | constructor (c : Constructor)
  | nested (c : ClassOf Member)
deriving BEq, Repr

abbrev ClassDecl := ClassOf Member

namespace Member

/-- The name of a member; constructors have none. -/
def name : Member → String
  | .method m => m.name
  | .field f => f.name
  | .constructor _ => ""
  | .nested c => c.name

def method? : Member → Option Method
  | .method m => some m
  | _ => none

def isMethod (name : String) : Member → Bool
  | .method m => m.name = name
  | _ => false

end Member

namespace ClassOf

def add (c : ClassDecl) (m : Member) : ClassDecl := { c with members := c.members ++ [m] }

def findMethod? (c : ClassDecl) (name : String) : Option Method :=
  (c.members.find? (·.isMethod name)).bind Member.method?

def modifyFirst (name : String) (f : Method → Method) : List Member → List Member
  | [] => []
  | .method m :: rest =>
    if m.name = name then .method (f m) :: rest else .method m :: modifyFirst name f rest
  | m :: rest => m :: modifyFirst name f rest

def modifyMethod (c : ClassDecl) (name : String) (f : Method → Method) : ClassDecl :=
  { c with members := modifyFirst name f c.members }

def fullName (c : ClassDecl) : String :=
  match c.package with
  | some p => if p = "" then c.name else p ++ "." ++ c.name
  | none => c.name

end ClassOf

def renderParams : List Param := [
  { type := .context, name := "context" },
  { type := .object, name := "data" },
  { type := .int, name := "index" },
  { type := .int, name := "count" },
  { type := .string, name := "key" }]

def boundParams : List Param := renderParams.drop 1

/-- The value of a method that takes a context and four more parameters and only returns it. -/
def Method.inline? (m : Method) : Option Expr :=
  match m.params, m.body with
  | [p, _, _, _, _], [.ret value] => if p.type = .context then value else none
  | _, _ => none

def forwardingConstructor (params : List Param) : Constructor :=
  { access := .everyone, params, baseArgs := params.map Param.ref }

/-- A view with its two constructors, one without arguments and one that takes parts. -/
def viewClass (package : Option String) (name : String) : ClassDecl where
  access := .everyone
  package
  name
  base := .view
  members := [
    .constructor (forwardingConstructor []),
    .constructor (forwardingConstructor [{ type := .part, name := "parts", varArgs := true }])]

def partClass (name : String) : ClassDecl where
  access := .classOnly
  name
  base := .part

end TwinView.Code
