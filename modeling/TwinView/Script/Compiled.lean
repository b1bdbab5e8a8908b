import TwinView.Code.Class
import TwinView.Code.Lowering
import TwinView.Code.Names
import TwinView.Script.Parser
import TwinView.Text.Names

/-!
Scripts as methods of the generated class. Each function of a script becomes a private method with the
parameters of rendering; a name that is neither bound nor declared is looked up in the environment of
the rendering. Names that were taken stay taken when a script is refused.
-/

namespace TwinView.Script

open Code Text

/-- What a script needs besides its parameters, and the names taken so far. -/
structure Scope where
  names : Names
  /-- Names read from the environment, in the order of their first use. -/
  reads : List String := []
  /-- Whether the environment is written to. -/
  writes : Bool := false

abbrev Compile := ExceptT Refusal (StateM Scope)

inductive Usage
  | read
  /-- It is the left side of a plain assignment. -/
  | assign
  | declare
deriving DecidableEq, Repr

def refuse {α : Type} (fault : ScriptFault) (index : Nat) : Compile α := throw ⟨fault, index⟩

def noteExtra (name : String) (usage : Usage) : Compile Code.Expr := do
  modify fun s =>
    if usage = .assign then { s with writes := true }
    else { s with reads := if s.reads.contains name then s.reads else s.reads ++ [name] }
  return .extra name false

def newName (stem : String) : Compile String := do
  let s ← get
  let (name, names) := s.names.fresh stem
  set { s with names }
  return name

def localName (name : String) : Compile Code.Expr := do
  let s ← get
  let (given, names) := s.names.rename name
  set { s with names }
  return .variableRef .object given

def compileName (usage : Usage) (name : String) : Compile Code.Expr := do
  if isGlobalName name then
    match name with
    | "undefined" => return .undefined
    | "NaN" => return .number Double.nan
    | "Infinity" => return .number (Double.infinity false)
    | _ => noteExtra name usage
  else
    match name with
    | "data" => return .variableRef .object name
    | "index" | "count" => return .variableRef .int name
    | "key" => return .variableRef .string name
    | _ =>
      if usage = .declare || (← get).names.isLocal name then localName name
      else noteExtra name usage

def literalNumber? : Expr → Option Double
  | .number _ x => some x
  | .parens _ inner => literalNumber? inner
  | .unary _ .negate operand => (literalNumber? operand).map fun x => ⟨x.bits ^^^ 0x8000000000000000⟩
  | .unary _ .plus operand => literalNumber? operand
  | _ => none

/-- The size of an array given by a number: a whole one below `2 ^ 32`. -/
def arraySize? (x : Double) : Option Nat :=
  x.toInt?.bind fun n => if 0 ≤ n && n < 0x100000000 then some n.toNat else none

def methodCall? (target : Code.Expr) (method : String) (args : List Code.Expr) :
    Option Code.Expr :=
  match method with
  | "toString" => some target.ensureText
  | "substring" => some (.invokeOn .string target.ensureText "substring" args)
  | "substr" =>
    -- a length becomes the place where it ends
    let args :=
      match args with
      | start :: length :: rest => start :: Code.Expr.lowerBinary (.arith .add) start length :: rest
      | args => args
    some (.invokeOn .string target.ensureText "substring" args)
  | _ => none

def calledMethod? : Code.Expr → Option (Code.Expr × String)
  | .property target key _ => key.primitive?.map fun k => (target, k.toText)
  | _ => none

/-- The test whether a value is of one of the types that can be asked for. -/
def typeTest? (target : Code.Expr) (name : String) : Option Code.Expr :=
  let test (method : String) : Code.Expr :=
    .either (Code.Expr.operate (.compare .identical) target .null).withParens (.bool false)
      (.invokeHelper .boolean method [.invokeOn .classRef target "getClass" []])
  match name with
  | "Array" => some (test "isArray")
  | "Date" => some (test "isDate")
  | _ => none

mutual

def compileExpr : Expr → Compile Code.Expr
  | .name _ name => compileName .read name
  | .number _ x => return .number x
  | .text _ s => return .text s
  | .bool _ b => return .bool b
  | .null _ => return .null
  | .this start => refuse .thisReference start
  | .parens _ inner => return (← compileExpr inner).withParens
  | .member _ target name => return .propertyOf (← compileExpr target) (.text name)
  | .index _ target key => do
    let target ← compileExpr target
    return .propertyOf target (← compileExpr key)
  | .call _ target args => do
    let callee ← compileExpr target
    match calledMethod? callee with
    | none => refuse (.unsupportedCall none) target.start
    | some (object, method) =>
      let args ← compileExprs args
      match methodCall? object method args with
      | some e => return e
      | none => refuse (.unsupportedCall (some method)) target.start
  | .new start target args => do
    match target with
    | .name _ "Array" =>
      match args with
      | [arg] =>
        match literalNumber? arg with
        | some x =>
          match arraySize? x with
          | some size => return .array .object size [] false
          | none => refuse (.arrayLength x.plain) arg.start
        | none => return .array .object 0 [← compileExpr arg] false
      | args => return .array .object 0 (← compileExprs args) false
    | _ => refuse .unsupportedNew start
  | .unary _ op operand => return Code.Expr.lowerUnary op (← compileExpr operand)
  | .typeOf _ operand => return .invokeHelper .string "typeOf" [← compileExpr operand]
  | .binary _ op left right => do
    let left ←
      match left with
      | .name _ name => compileName (if op = .assign then .assign else .read) name
      | left => compileExpr left
    return Code.Expr.lowerBinary op left (← compileExpr right)
  | .isIn _ key target => do
    let key ← compileExpr key
    let target ← compileExpr target
    return .invokeHelper .boolean "containsKey" [target, key]
  | .instanceOf start target type => do
    let target ← compileExpr target
    match type with
    | .name _ name =>
      match typeTest? target name with
      | some e => return e
      | none => refuse (.unsupportedType name) start
    | _ => refuse .typeOperand type.start
  | .cond _ test yes no => do
    let test ← compileExpr test
    let yes ← compileExpr yes
    return Code.Expr.lowerTernary test yes (← compileExpr no)
  | .comma start _ => refuse (.unsupported ",") start
  | .object _ props => return .invokeHelper .map "asMap" (← compileProps props)
  | .array _ items => return .array .object 0 (← compileExprs items) false
  | .function _ body => refuse .nestedFunction body.start

def compileExprs : List Expr → Compile (List Code.Expr)
  | [] => return []
  | e :: rest => do
    let e ← compileExpr e
    return e :: (← compileExprs rest)

def compileProps : List (PropertyKey × Expr) → Compile (List Code.Expr)
  | [] => return []
  | (key, value) :: rest => do
    let key : Code.Expr :=
      match key with
      | .name s | .text _ s => .text s
      | .number _ x => .number x
    let value ← compileExpr value
    return key :: value :: (← compileProps rest)

end

def compileOption : Option Expr → Compile (Option Code.Expr)
  | none => return none
  | some e => return some (← compileExpr e)

/-- The test of a loop; without one it goes on. -/
def compileTest : Option Expr → Compile Code.Expr
  | none => return .bool true
  | some e => compileExpr e

/-- A declared name; the bound names may be declared again, the global ones may not. -/
def compileDecl (d : Decl) : Compile VarDecl := do
  match ← compileName .declare d.name with
  | .var name type _ => return { type, name, init := ← compileOption d.init }
  | _ => refuse .declaredName d.start

def compileDecls : List Decl → Compile (List VarDecl)
  | [] => return []
  | d :: rest => do
    let d ← compileDecl d
    return d :: (← compileDecls rest)

def declStmt : List VarDecl → Code.Stmt
  | [d] => .var d
  | ds => .vars ds

def compileHead : Option Stmt → Compile (Option Code.Stmt)
  | some (.expr _ e) => return some (.expr (← compileExpr e))
  | some (.var _ decls) => return some (declStmt (← compileDecls decls))
  | _ => return none

mutual

/-- The statements that a statement becomes; a block adds its own. -/
def compileStmt : Stmt → Compile (List Code.Stmt)
  | .expr _ e => return [.expr (← compileExpr e)]
  | .var _ decls => return [declStmt (← compileDecls decls)]
  | .ret _ none => return [.ret (some .undefined)]
  | .ret _ (some e) => return [.ret (some (← compileExpr e))]
  | .block _ body => compileStmts body
  | .loop _ init test update body => do
    let init ← compileHead init
    let test ← compileTest test
    let step ← compileOption update
    match body with
    | .block _ stmts => return [.loop init test (step.map .expr) (← compileStmts stmts)]
    | body => refuse .loopBody body.start
  | .function _ body => refuse .nestedFunction body.start
  | .empty _ => return []

def compileStmts : List Stmt → Compile (List Code.Stmt)
  | [] => return []
  | s :: rest => do
    let first ← compileStmt s
    return first ++ (← compileStmts rest)

end

def endsInReturn (body : List Code.Stmt) : Bool :=
  match body.getLast? with
  | some (.ret _) => true
  | _ => false

/-- A function as a method. It returns undefined if it does not end in a return. -/
def compileFunction (f : Function) : Compile Method := do
  let name ← newName "code_"
  let body ← compileStmts f.body
  return {
    access := .classOnly
    returns := .object
    name
    params := renderParams
    body := if endsInReturn body then body else body ++ [.ret (some .undefined)] }

def compileProgram : List Stmt → Compile (List Method)
  | [] => return []
  | .function _ f :: rest => do
    let m ← compileFunction f
    return m :: (← compileProgram rest)
  | .empty _ :: rest => compileProgram rest
  | s :: _ => refuse .unexpectedMember s.start

/-- A script as methods, with what it needs from the environment. -/
structure Compiled where
  methods : List Method
  reads : List String
  writes : Bool

def Compiled.hasExtras (t : Compiled) : Bool := t.writes || !t.reads.isEmpty

/-- Compiles a source, and gives back the names with those it took, also if it is refused. -/
def compile (names : Names) (source : String) : Except Refusal Compiled × Names :=
  match parse source with
  | .error r => (.error r, names)
  | .ok program =>
    match (compileProgram program).run.run { names } with
    | (.ok methods, s) => (.ok { methods, reads := s.reads, writes := s.writes }, s.names)
    | (.error r, s) => (.error r, s.names)

end TwinView.Script
