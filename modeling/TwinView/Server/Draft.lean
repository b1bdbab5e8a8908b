import TwinView.Code.Class
import TwinView.Code.Coercion
import TwinView.Code.Names
import TwinView.Error
import TwinView.Markup
import TwinView.Settings

/-!
A class under construction. Markup is gathered in a buffer and becomes one statement as soon as
something else has to be rendered after it; statements go to the innermost of the open frames.
-/

namespace TwinView.Server

open Code

/-- How the blanks of literal text are treated. -/
inductive TextMode
  | normal
  | preformatted
  | raw
deriving DecidableEq, Repr

structure Frame where
  stmts : List Stmt := []
  /-- Whether these are the outermost statements of a method. -/
  ofMethod : Bool := false

structure Draft where
  target : ClassDecl
  names : Names := {}
  /-- Markup that no statement renders yet. -/
  buffer : String := ""
  /-- Whether a client script makes its call in that markup. -/
  hasCall : Bool := false
  frames : List Frame := []
  mode : TextMode := .normal
  /-- Whether the client still has to be set up on some path to here. -/
  needsExtras : Bool := true
  hasScripts : Bool := false

abbrev Build := StateT Draft (Except Error)

/-- Looks at the draft wherever a frame is opened and wherever a node is about to be built, and may end
the build there. -/
class Probe where
  node : Draft → Option Error := fun _ => none
  frame : Draft → Option Error := fun _ => none

/-- Views are built without one. -/
instance noProbe : Probe := {}

def stopBy (stop : Draft → Option Error) : Build Unit := do
  match stop (← get) with
  | some e => throw e
  | none => return

def renderCall (method : String) (args : List Expr) (origin : Origin := .plain) : Stmt :=
  .expr (.invokeSelf .void method (.context :: args)) origin

def write (e : Expr) (origin : Origin := .plain) : Stmt := renderCall "write" [e] origin

def writeEncoded (e : Expr) (origin : Origin := .plain) : Stmt :=
  renderCall "htmlEncode" [e] origin

def writeData (e : Expr) : Stmt := renderCall "dataEncode" [e, .int 1]

/-- Markup as a constant: a character if it is one, otherwise a string. -/
def markupConstant (s : String) : Primitive :=
  match s.toList with
  | [c] => .char c
  | _ => .text s

def Frame.add (f : Frame) (stmt : Stmt) : Frame := { f with stmts := f.stmts ++ [stmt] }

def Draft.add (d : Draft) (stmt : Stmt) : Draft :=
  match d.frames with
  | [] => d
  | f :: rest => { d with frames := f.add stmt :: rest }

def Draft.pending (d : Draft) : Stmt :=
  write (.const (markupConstant d.buffer)) (if d.hasCall then .clientCall else .plain)

def Draft.flush (d : Draft) : Draft :=
  if d.buffer = "" then d
  else { d.add d.pending with buffer := "", hasCall := false }

def Draft.close (d : Draft) : List Stmt × Draft :=
  match d.frames with
  | [] => ([], d)
  | f :: rest => (f.stmts, { d with frames := rest })

def Draft.isUnconditional (d : Draft) : Bool := d.frames.all (·.ofMethod)

def add (stmt : Stmt) : Build Unit := modify (·.add stmt)

def flush : Build Unit := modify Draft.flush

def put (markup : String) : Build Unit := modify fun d => { d with buffer := d.buffer ++ markup }

/-- Puts the call of a client script into the buffer, up to its arguments. -/
def putCall : Build Unit := do
  put ").toDOM("
  modify fun d => { d with hasCall := true }

def addMember (m : Member) : Build Unit := modify fun d => { d with target := d.target.add m }

def addMethods (ms : List Method) : Build Unit :=
  modify fun d => { d with
    target := { d.target with members := d.target.members ++ ms.map .method } }

def freshName (stem : String) : Build String :=
  modifyGet fun d =>
    let (name, names) := d.names.fresh stem
    (name, { d with names })

def inFrame [p : Probe] (ofMethod : Bool) (body : Build Unit) : Build (List Stmt) := do
  stopBy p.frame
  modify fun d => { d with frames := { ofMethod } :: d.frames }
  body
  flush
  modifyGet Draft.close

def addCondition [Probe] (test : Expr) (body : Build Unit) : Build Unit := do
  let stmts ← inFrame false body
  add (.cond test stmts [])

def declare (type : Ty) (stem : String) (init : Expr) : Build Expr := do
  let decl : VarDecl := { type, name := ← freshName stem, init := some init }
  add (.var decl)
  return decl.ref

/-- Calls the setup of the client here, unless every path to here has done so. -/
def ensureExtras (inMarkup : Bool) : Build Unit := do
  if (← get).needsExtras then
    flush
    add (renderCall "writeExtras" [.bool inMarkup])
    modify fun d => if d.isUnconditional then { d with needsExtras := false } else d

def noteScript : Build Unit := modify fun d => { d with hasScripts := true }

def buildRenderMethod [Probe] (body : Build Unit) : Build String := do
  let name ← freshName "render_"
  addMember (.method {
    access := .classOnly, returns := .void, name, params := renderParams
    throws := [.ioException] })
  flush
  let stmts ← inFrame true body
  modify fun d => { d with target := d.target.modifyMethod name fun m => { m with body := stmts } }
  return name

def promote (name : String) : Build Unit :=
  modify fun d => { d with target := d.target.modifyMethod name fun m =>
    { m with name := "render", access := .subclasses, overrides := true } }

def addToInit (stmt : Stmt) : Build Unit := do
  if ((← get).target.findMethod? "init").isNone then
    addMember (.method {
      access := .subclasses, returns := .void, name := "init", params := [], overrides := true })
  modify fun d => { d with target := d.target.modifyMethod "init" fun m =>
    { m with body := m.body ++ [stmt] } }

end TwinView.Server
