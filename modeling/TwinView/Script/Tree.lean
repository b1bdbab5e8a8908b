import TwinView.Code.Operators
import TwinView.Number.Double

/-!
Syntax trees of the binding language. Every expression and every statement has the byte offset where
it starts.
-/

namespace TwinView.Script

open Code

inductive PropertyKey
  | name (s : String)
  | text (start : Nat) (value : String)
  | number (start : Nat) (value : Double)
deriving Repr

structure FunctionOf (σ : Type) where
  name : Option String
  params : List String
  body : List σ
  start : Nat
deriving Repr

structure DeclOf (ε : Type) where
  name : String
  init : Option ε
  start : Nat
deriving Repr

mutual

inductive Expr
  | name (start : Nat) (name : String)
  | number (start : Nat) (value : Double)
  | text (start : Nat) (value : String)
  | bool (start : Nat) (value : Bool)
  | null (start : Nat)
  | this (start : Nat)
  | parens (start : Nat) (inner : Expr)
  | member (start : Nat) (target : Expr) (name : String)
  | index (start : Nat) (target key : Expr)
  | call (start : Nat) (target : Expr) (args : List Expr)
  | new (start : Nat) (target : Expr) (args : List Expr)
  | unary (start : Nat) (op : UnaryOp) (operand : Expr)
  | typeOf (start : Nat) (operand : Expr)
  | binary (start : Nat) (op : BinaryOp) (left right : Expr)
  | isIn (start : Nat) (key target : Expr)
  | instanceOf (start : Nat) (target type : Expr)
  | cond (start : Nat) (test yes no : Expr)
  | comma (start : Nat) (items : List Expr)
  | object (start : Nat) (props : List (PropertyKey × Expr))
  | array (start : Nat) (items : List Expr)
  | function (start : Nat) (body : FunctionOf Stmt)

inductive Stmt
  | expr (start : Nat) (e : Expr)
  | var (start : Nat) (decls : List (DeclOf Expr))
  | ret (start : Nat) (value : Option Expr)
  | block (start : Nat) (body : List Stmt)
  | loop (start : Nat) (init : Option Stmt) (test update : Option Expr) (body : Stmt)
  | function (start : Nat) (body : FunctionOf Stmt)
  | empty (start : Nat)

end

abbrev Function := FunctionOf Stmt
abbrev Decl := DeclOf Expr

def Expr.start : Expr → Nat
  | .name i _ | .number i _ | .text i _ | .bool i _ | .null i | .this i | .parens i _
  | .member i _ _ | .index i _ _ | .call i _ _ | .new i _ _ | .unary i _ _ | .typeOf i _
  | .binary i _ _ _ | .isIn i _ _ | .instanceOf i _ _ | .cond i _ _ _ | .comma i _ | .object i _
  | .array i _ | .function i _ => i

def Stmt.start : Stmt → Nat
  | .expr i _ | .var i _ | .ret i _ | .block i _ | .loop i _ _ _ _ | .function i _ | .empty i => i

/-- Whether an expression may stand on the left of an assignment. -/
def Expr.isTarget : Expr → Bool
  | .name _ _ | .member _ _ _ | .index _ _ _ => true
  | _ => false

end TwinView.Script
