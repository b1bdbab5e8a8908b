import TwinView.Code.Class
import TwinView.Java.Expression
import TwinView.Text.Chars

/-!
Java statements, members and whole files.
-/

namespace TwinView.Java

open Text Code

def lines (s : Settings) (depth count : Nat) : String :=
  repeated count s.newline ++ repeated depth s.indent

def line (s : Settings) (depth : Nat) : String := lines s depth 1

/-- A declared name with its initial value; in the head of a loop without spaces. -/
def declarator (s : Settings) (inHead : Bool) (d : VarDecl) : String :=
  match d.init with
  | none => d.name
  | some e => d.name ++ (if inHead then "=" else " = ") ++ expression s .flagged e

def declarators (s : Settings) (depth : Nat) (inHead : Bool) : List VarDecl → String
  | [] => ""
  | d :: rest =>
    let separator := if inHead then ", " else "," ++ line s (depth + 1)
    typeName d.type ++ " " ++ separator.intercalate ((d :: rest).map (declarator s inHead))

mutual

def statementBody (s : Settings) (depth : Nat) (inHead : Bool) : Stmt → String
  | .expr e _ => ended inHead (expression s .never e)
  | .var d => ended inHead (typeName d.type ++ " " ++ declarator s inHead d)
  | .vars decls => if decls.isEmpty then "" else ended inHead (declarators s depth inHead decls)
  | .cond test yes no =>
    "if (" ++ condition s .never test ++ ") \x7b" ++ statements s (depth + 1) yes ++ line s depth ++
      "\x7d" ++ otherwise s depth no
  | .loop init test step body =>
    "for (" ++ header s depth init ++ "; " ++ condition s .flagged test ++ "; " ++
      header s depth step ++ ") \x7b" ++ statements s (depth + 1) body ++ line s depth ++ "\x7d"
  | .ret none => ended inHead "return"
  | .ret (some e) => ended inHead ("return " ++ expression s .flagged e)
  | .comment value => blockComment value
where
  ended (inHead : Bool) (written : String) : String := if inHead then written else written ++ ";"

/-- What follows a condition's body. A lone condition goes on the same line. -/
def otherwise (s : Settings) (depth : Nat) : List Stmt → String
  | [] => ""
  | [stmt] =>
    match stmt with
    | .cond _ _ _ => " else " ++ statementBody s depth false stmt
    | _ => " else \x7b" ++ line s (depth + 1) ++ statementBody s (depth + 1) false stmt ++
      line s depth ++ "\x7d"
  | stmt :: rest =>
    " else \x7b" ++ line s (depth + 1) ++ statementBody s (depth + 1) false stmt ++
      statements s (depth + 1) rest ++ line s depth ++ "\x7d"

def header (s : Settings) (depth : Nat) : Option Stmt → String
  | none => ""
  | some stmt => statementBody s depth true stmt

def statements (s : Settings) (depth : Nat) : List Stmt → String
  | [] => ""
  | stmt :: rest => line s depth ++ statementBody s depth false stmt ++ statements s depth rest

end

def statement (s : Settings) (stmt : Stmt) : String := line s 0 ++ statementBody s 0 false stmt

def accessWord : Access → String
  | .classOnly => "private "
  | .subclasses => "protected "
  | .everyone => "public "

def parameter (p : Param) : String :=
  typeName p.type ++ (if p.varArgs then "... " else " ") ++ p.name

def parameters (ps : List Param) : String := "(" ++ ", ".intercalate (ps.map parameter) ++ ")"

def field (f : Field) : String := accessWord f.access ++ typeName f.type ++ " " ++ f.name ++ ";"

def constructor (s : Settings) (className : String) (depth : Nat) (c : Constructor) : String :=
  let base :=
    if c.baseArgs.isEmpty then ""
    else line s (depth + 1) ++ "super(" ++ arguments s c.baseArgs ++ ");"
  accessWord c.access ++ className ++ parameters c.params ++ " \x7b" ++ base ++
    statements s (depth + 1) c.body ++ line s depth ++ "\x7d"

def method (s : Settings) (depth : Nat) (m : Method) : String :=
  let throws :=
    if m.throws.isEmpty then "" else " throws " ++ ", ".intercalate (m.throws.map typeName)
  (if m.overrides then "@Override" ++ line s depth else "") ++ accessWord m.access ++
    typeName m.returns ++ " " ++ m.name ++ parameters m.params ++ throws ++ " \x7b" ++
    statements s (depth + 1) m.body ++ line s depth ++ "\x7d"

mutual

def classBody (s : Settings) (depth : Nat) : ClassDecl → String
  | ⟨access, _, name, base, ms⟩ =>
    accessWord access ++ "class " ++ name ++
      (if base = .object then "" else " extends " ++ typeName base) ++ " \x7b" ++
      members s name (depth + 1) ms ++ line s depth ++ "\x7d"

def members (s : Settings) (className : String) (depth : Nat) : List Member → String
  | [] => ""
  | m :: rest => lines s depth 2 ++ member s className depth m ++ members s className depth rest

def member (s : Settings) (className : String) (depth : Nat) : Member → String
  | .constructor c => constructor s className depth c
  | .method m => method s depth m
  | .field f => field f
  | .nested c => classBody s depth c

end

def fileHead (s : Settings) (package : Option String) : String :=
  let declared :=
    match package with
    | some p => if p = "" then "" else "package " ++ p ++ ";" ++ lines s 0 2
    | none => ""
  declared ++ "import java.io.*;" ++ line s 0 ++ "import java.util.*;" ++ line s 0 ++
    "import java.util.Map.Entry;" ++ line s 0 ++ "import org.duelengine.duel.*;" ++ lines s 0 2

def source (s : Settings) (c : ClassDecl) : String :=
  fileHead s c.package ++ classBody s 0 c ++ line s 0

end TwinView.Java
