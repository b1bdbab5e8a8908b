import TwinView.Script.Compiled
import TwinView.Server.Draft
import TwinView.Template.Basic

/-!
Code blocks of a template as expressions of the class. A block that cannot run on the server is
refused with an error placed in the template.
-/

namespace TwinView.Server

open Code Text

structure Fragment where
  expr : Expr
  /-- Whether it depends on the environment, so that the client may have to finish the job. -/
  hybrid : Bool

def clientCode (b : CodeBlock) : String := b.clientCode false

def findFrom (text : List Char) : Nat → List Char → Option Nat
  | here, [] => if text.isEmpty then some here else none
  | here, c :: rest =>
    if text.isPrefixOf (c :: rest) then some here else findFrom text (here + c.utf8Size) rest

/-- The place in the template of an offset in a block's client function. -/
def placeInTemplate (b : CodeBlock) (index : Nat) : Position :=
  let length := Script.byteLength b.value.toList
  let leading := length - Script.byteLength (trimStart b.value).toList
  let before := (findFrom (trim b.value).toList 0 (clientCode b).toList).getD 0
  let offset := min (index + leading - before) length
  let inside := Position.locate b.value offset
  let base := b.position.getD ⟨0, 1, 0⟩
  { index := base.index + offset
    line := base.line + inside.line - 1
    column := if inside.line = 1 then base.column + inside.column else inside.column }

/-- The expression of compiled methods: the value of the first if it only returns one, otherwise a
call of it. Also the methods that have to be added. -/
def inlined (m : Method) (rest : List Method) : Expr × List Method :=
  match m.inline? with
  | some e => (e, rest)
  | none => (.invokeSelf m.returns m.name (renderParams.map Param.ref), m :: rest)

/-- Compiles a block and adds its methods. Names that were taken stay taken if it is refused. -/
def fragment? (b : CodeBlock) (canDefer : Bool) : Build (Except Error Fragment) := do
  let d ← get
  let (result, names) := Script.compile d.names (clientCode b)
  set { d with names }
  match result with
  | .error r => return .error (.script r.fault (placeInTemplate b r.index))
  | .ok t =>
    match t.methods with
    | [] => return .error (.template .noMethod b.position)
    | m :: rest =>
      let (expr, added) := inlined m rest
      addMethods added
      let hybrid := t.hasExtras && canDefer
      if hybrid then modify fun d => { d with needsExtras := true }
      return .ok { expr, hybrid }

def requiredExpr (b : CodeBlock) : Build Expr := do
  match ← fragment? b false with
  | .ok f => return f.expr
  | .error e => throw e

/-- The block that gives a command's argument; text is taken for an expression. -/
def argumentBlock? : Option Node → Option CodeBlock
  | some (.code b) => some b
  | some (.text .literal value position) => some { kind := .expression, value, position }
  | _ => none

def calledName? : Option Node → Option String
  | some (.text .literal value _) => some value
  | some (.code b) => if b.kind = .expression then some b.value else none
  | _ => none

def unwrapMarkup (b : CodeBlock) : CodeBlock := if b.kind = .markup then b.asExpression else b

/-- Writes a value encoded; what is known now is encoded now, and numbers and booleans need no
encoding. -/
def writeSafe (s : Settings) (e : Expr) (origin : Origin := .plain) : Stmt :=
  let type := e.resultType
  if type.isBoolean || type.isNumber || (type.isScalar && type ≠ .char) then write e origin
  else
    match e.primitive? with
    | some value =>
      let text := if value.isNullish then "" else value.toText
      write (.text (Markup.literal s.encodeNonAscii text)) origin
    | none => writeEncoded e origin

/-- Writes the value of a block, encoded unless it is marked as markup. -/
def writeValue (s : Settings) (block : CodeBlock) (e : Expr) : Stmt :=
  if block.kind = .markup then write e (.value block) else writeSafe s e (.value block)

def transformedUrl (e : Expr) : Expr := .invokeSelf .string "transformURL" [.context, e.ensureText]

def isDefined (e : Expr) : Expr := .operate (.compare .notIdentical) e .undefined

def isUndefined (e : Expr) : Expr := .operate (.compare .identical) e .undefined

def declareId : Build Expr := declare .string "id_" (.invokeSelf .string "nextID" [.context])

def putScriptOpen (s : Settings) (withId : Bool) : Build Unit := do
  put (Markup.openTag "script")
  if s.scriptTypeAttr then put (Markup.wholeAttribute "type" (some "text/javascript"))
  if withId then put (Markup.openAttribute "id")

def openScriptWithId (s : Settings) : Build Expr := do
  noteScript
  putScriptOpen s true
  flush
  let id ← declareId
  add (write id)
  put Markup.closeAttribute
  put Markup.closeTag
  ensureExtras false
  return id

def putData : List Expr → Build Unit
  | [] => return
  | [e] => do
    flush
    add (writeData e)
  | e :: rest => do
    flush
    add (writeData e)
    put ","
    putData rest

def putBound (count : Nat) : Build Unit := putData ((boundParams.take count).map Param.ref)

/-- A script element that evaluates a block on the client and puts the result in its own place. -/
def buildDeferredBlock (s : Settings) (b : CodeBlock) : Build Unit := do
  let id ← openScriptWithId s
  put ("duel(" ++ clientCode b ++ ")(")
  putBound b.arity
  putCall
  flush
  add (writeData id)
  put ");"
  put (Markup.endTag "script")

def buildBlock [Probe] (s : Settings) (block : CodeBlock) : Build Unit := do
  let b := unwrapMarkup block
  match ← fragment? b true with
  | .error _ => buildDeferredBlock s b
  | .ok f =>
    flush
    if f.hybrid then
      let value ← declare .object "val_" f.expr
      let fallback ← inFrame false (buildDeferredBlock s b)
      add (.cond (isDefined value) [writeValue s block value] fallback)
    else add (writeValue s block f.expr)

end TwinView.Server
