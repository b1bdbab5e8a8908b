import TwinView.Server.Attributes

/-!
Nodes of a template as statements of the class. The body of a loop becomes a method and that of a part
a nested class; everything else is rendered where it stands.
-/

namespace TwinView.Server

open Code

def runAll : List (Build Unit) → Build Unit
  | [] => return
  | b :: rest => do
    b
    runAll rest

def buildLiteral (s : Settings) (value : String) : Build Unit := do
  match (← get).mode with
  | .raw => put value
  | .preformatted => put (Markup.literal s.encodeNonAscii value)
  | .normal =>
    let value := if s.normalizeWhitespace && value ≠ "" then Markup.normalize value else value
    put (Markup.literal s.encodeNonAscii value)

def buildText (s : Settings) (value : String) : TextKind → Build Unit
  | .literal => buildLiteral s value
  | .unknown => do
    ensureExtras true
    put value
  | .comment => put (Markup.comment value)
  | .docType => put (Markup.docType value)
  | .codeComment => do
    flush
    add (.comment value)

inductive BuiltBranch
  | tested (test : Expr) (body : List Stmt)
  | plain (body : List Stmt)

/-- Later branches go into the false part of earlier ones. -/
def chain : List BuiltBranch → List Stmt
  | [] => []
  | .tested test body :: rest => [.cond test body (chain rest)]
  | .plain body :: rest => body ++ chain rest

def addAll : List Stmt → Build Unit
  | [] => return
  | stmt :: rest => do
    add stmt
    addAll rest

def inMethodFrame : Build Bool := do
  return (← get).frames.head?.any (·.ofMethod)

/-- A loop that counts up to a number, with the same data each time. -/
def buildCountLoop (render : String) (count data : Expr) : Build Unit := do
  let data : VarDecl := { type := .object, name := ← freshName "data_", init := some data }
  let index : VarDecl := { type := .int, name := ← freshName "index_", init := some (.int 0) }
  let count := if count.resultType = .int then count else .cast .int count.ensureNumber false
  let count : VarDecl := { type := .int, name := ← freshName "count_", init := some count }
  let body : Expr := .invokeSelf .void render [.context, data.ref, index.ref, count.ref, .null]
  add (.var data)
  add (.loop (some (.vars [index, count])) (.operate (.compare .less) index.ref count.ref)
    (some (.expr (.apply .postIncrement index.ref))) [.expr body])

/-- The variables of a loop over a collection. -/
structure Cursor where
  items : VarDecl
  index : VarDecl
  count : VarDecl
  iterator : VarDecl

def newCursor (items : Expr) : Build Cursor := do
  let items : VarDecl := { type := .collection, name := ← freshName "items_", init := some items }
  let index : VarDecl := { type := .int, name := ← freshName "index_", init := some (.int 0) }
  let count : VarDecl := {
    type := .int, name := ← freshName "count_", init := some (.invokeOn .int items.ref "size" []) }
  let iterator : VarDecl := {
    type := .iterator, name := ← freshName "iterator_"
    init := some (.invokeOn .iterator items.ref "iterator" []) }
  return { items, index, count, iterator }

def Cursor.next (c : Cursor) : Expr := .invokeOn .object c.iterator.ref "next" []

def Cursor.addLoop (c : Cursor) (body : List Stmt) : Build Unit := do
  add (.var c.items)
  add (.vars [c.index, c.count])
  add (.loop (some (.var c.iterator)) (.invokeOn .boolean c.iterator.ref "hasNext" [])
    (some (.expr (.apply .postIncrement c.index.ref))) body)

def Cursor.renderItem (c : Cursor) (render : String) (data key : Expr) : Stmt :=
  .expr (.invokeSelf .void render [.context, data, c.index.ref, c.count.ref, key])

def buildMapLoop (render : String) (source : Expr) : Build Unit := do
  let c ← newCursor (.invokeOn .collection source.ensureMap "entrySet" [])
  let entry : VarDecl := {
    type := .mapEntry, name := ← freshName "entry_", init := some (.cast .mapEntry c.next false) }
  c.addLoop [.var entry, c.renderItem render (.invokeOn .object entry.ref "getValue" [])
    (Expr.invokeOn .object entry.ref "getKey" []).ensureText]

def buildListLoop (render : String) (source : Expr) : Build Unit := do
  let c ← newCursor source.ensureCollection
  c.addLoop [c.renderItem render c.next .null]

def buildLoopHead (l : Loop) (render : String) : Build Unit := do
  match argumentBlock? l.count, argumentBlock? l.within, argumentBlock? l.each with
  | some count, _, _ =>
    let count ← requiredExpr count
    let data ←
      match argumentBlock? l.data with
      | some data => requiredExpr data
      | none => pure (.variableRef .object "data")
    buildCountLoop render count data
  | none, some source, _ => buildMapLoop render (← requiredExpr source)
  | none, none, some source => buildListLoop render (← requiredExpr source)
  | none, none, none => throw (.template .loopSource l.position)

/-- The arguments of a call with the parameters that stand for those not given. -/
def callArguments (c : Call) : List (Option CodeBlock × Param) :=
  ([c.data, c.index, c.count, c.key].map argumentBlock?).zip boundParams

/-- The arguments of a call, or the first reason why the server cannot evaluate them. -/
def arguments? : List (Option CodeBlock × Param) → Build (Except Error (List Expr))
  | [] => return .ok []
  | (none, param) :: rest => return (← arguments? rest).map (param.ref :: ·)
  | (some b, _) :: rest => do
    match ← fragment? b false with
    | .error e => return .error e
    | .ok f => return (← arguments? rest).map (f.expr :: ·)

def calledViewError (c : Call) : Error :=
  .template .calledView (c.view.bind Node.position <|> c.position)

/-- The called view in a client script: its name, or an anonymous view of an evaluated block. -/
def putCalledView (s : Settings) (c : Call) : Build Unit := do
  match calledName? c.view, c.view with
  | some name, _ => put (s.clientName name)
  | none, some (.code b) =>
    put "duel("
    let view ← requiredExpr b
    flush
    add (writeData view)
    put ")"
  | none, _ => throw (calledViewError c)

def buildDeferredCall (s : Settings) (c : Call) : Build Unit := do
  let id ← openScriptWithId s
  putCalledView s c
  put "("
  match ← arguments? (callArguments c) with
  | .error e => throw e
  | .ok args => putData args
  putCall
  flush
  add (writeData id)
  put ");"
  put (Markup.endTag "script")

/-- Builds a part as a nested class and gives the name of the class. -/
def buildPart [Probe] (p : PartOf (Build Unit)) : Build String := do
  let name ← freshName "part_"
  let outer ← get
  set { outer with
    names := {}
    target := (partClass name).add (.method {
      access := .everyone, returns := .string, name := "getPartName", params := []
      body := [.ret (some (.text p.name))], overrides := true }) }
  promote (← buildRenderMethod (runAll p.children))
  modify fun d => { d with target := outer.target.add (.nested d.target), names := outer.names }
  return name

def buildParts [Probe] : List (PartOf (Build Unit)) → Build (List String)
  | [] => return []
  | p :: rest => do
    let name ← buildPart p
    return name :: (← buildParts rest)

def construct (name : String) : Expr := .create name [] false

/-- A call of a view, which becomes a field of the class. If the server cannot evaluate its arguments
the whole call is left to the client. -/
def buildCall [Probe] (s : Settings) (c : Call) (parts : List (PartOf (Build Unit))) : Build Unit := do
  if c.defer then buildDeferredCall s c
  else
    match calledName? c.view with
    | none => throw (calledViewError c)
    | some name =>
      let before := (← get).target.members.length
      match ← arguments? (callArguments c) with
      | .error _ =>
        modify fun d => { d with
          target := { d.target with members := d.target.members.take before } }
        buildDeferredCall s c
      | .ok args =>
        let fieldName ← freshName "view_"
        addMember (.field { access := .classOnly, type := .view, name := fieldName })
        let classes ← buildParts parts
        let field : Expr := .field .self fieldName .view false
        addToInit (.expr (.operate .assign field
          (.create (s.serverName name) (classes.map construct) false)))
        flush
        add (renderCall "renderView" (field :: args) (.parts classes))

def buildPartSlot [Probe] (p : PartOf (Build Unit)) : Build Unit := do
  if Text.trim p.name = "" then throw (.template .partName p.position)
  else
    let name ← buildPart p
    addToInit (.expr (.invokeSelf .void "addPart" [construct name]))
    flush
    add (renderCall "renderPart" (.text p.name :: boundParams.map Param.ref) (.parts [name]))

def contentMode (e : Element) (mode : TextMode) : TextMode :=
  if e.isTag "script" || e.isTag "style" then .raw
  else if e.isTag "pre" then .preformatted
  else mode

def isEdgeText : Node → Bool
  | .text .literal value _ => Markup.isNewlines value
  | _ => false

/-- The children of an element. With normalization, text that is only line breaks is dropped at the
edges. -/
def buildChildren (s : Settings) (children : List (Node × Build Unit)) : Build Unit := do
  if s.normalizeWhitespace && (← get).mode = .normal then
    runAll ((Markup.trimEdges (isEdgeText ·.1) children).map (·.2))
  else runAll (children.map (·.2))

/-- What is between the tags of an element, with its end tag. A body with scripts sets up the client
at its end. -/
def buildContent (s : Settings) (e : Element) (children : List (Build Unit)) : Build Unit := do
  put Markup.closeTag
  let mode := (← get).mode
  modify fun d => { d with mode := contentMode e mode }
  buildChildren s (e.children.zip children)
  modify fun d => { d with mode }
  if (← get).hasScripts && e.isTag "body" then
    ensureExtras true
    put s.newline
  put (Markup.endTag e.tag)

/-- An element behind its setup: its tags, its attributes, its content and the script that finishes
its attributes. -/
def buildTagged [Probe] (s : Settings) (e : Element) (children : List (Build Unit)) : Build Unit := do
  put (Markup.openTag e.tag)
  let pending ← buildAttributes s e {} e.attributes
  let body : Build Unit :=
    if e.canHaveChildren then buildContent s e children
    else put (if s.xhtmlStyle then Markup.closeVoidTag else Markup.closeTag)
  if pending.isEmpty then body
  else
    let id ← buildElementId e pending
    body
    buildPending s pending id

def buildElement [Probe] (s : Settings) (e : Element) (children : List (Build Unit)) : Build Unit := do
  if e.isTag "script" then
    noteScript
    ensureExtras true
  buildTagged s e children

def visit [p : Probe] (node : Build Unit) : Build Unit := do
  stopBy p.node
  node

mutual

def buildNode [Probe] (s : Settings) : Node → Build Unit
  | .text kind value _ => buildText s value kind
  | .code b => buildBlock s b
  | .element ⟨tag, attributes, children, position⟩ =>
    buildElement s ⟨tag, attributes, children, position⟩ (buildEach s children)
  | .view v => throw (.template .nestedView v.position)
  | .choice ⟨branches, _⟩ => do
    flush
    let built ← buildBranches s (← inMethodFrame) branches
    addAll (chain built)
  | .branch ⟨test, children, _⟩ => do
    flush
    let test ←
      match test with
      | some b => requiredExpr b
      | none => pure (.bool true)
    addCondition test (runAll (buildEach s children))
  | .loop ⟨each, within, count, data, children, position⟩ => do
    if children.isEmpty then return
    else
      let render ← buildRenderMethod (runAll (buildEach s children))
      buildLoopHead ⟨each, within, count, data, children, position⟩ render
  | .call ⟨view, data, index, count, key, defer, children, position⟩ =>
    buildCall s ⟨view, data, index, count, key, defer, children, position⟩
      (Supply.gather position (buildSupplies s children))
  | .part ⟨name, children, position⟩ => buildPartSlot ⟨name, buildEach s children, position⟩

def buildEach [Probe] (s : Settings) : List Node → List (Build Unit)
  | [] => []
  | n :: rest => visit (buildNode s n) :: buildEach s rest

/-- Branches in order. A branch without a test in front of all tests runs in the frame around it. -/
def buildBranches [Probe] (s : Settings) : Bool → List Branch → Build (List BuiltBranch)
  | _, [] => return []
  | _, ⟨some test, children, _⟩ :: rest => do
    let test ← requiredExpr test
    let body ← inFrame false (runAll (buildEach s children))
    return .tested test body :: (← buildBranches s false rest)
  | inherited, ⟨none, children, _⟩ :: rest => do
    let body ← inFrame inherited (runAll (buildEach s children))
    return .plain body :: (← buildBranches s inherited rest)

def buildSupplies [Probe] (s : Settings) : List Node → List (Supply (Build Unit))
  | [] => []
  | .part ⟨name, children, position⟩ :: rest =>
    .part ⟨name, buildEach s children, position⟩ :: buildSupplies s rest
  | n :: rest => .loose n.isSpace (visit (buildNode s n)) :: buildSupplies s rest

end

def splitName (fullName : String) : Option String × String :=
  let name := (fullName.toList.reverse.takeWhile (· ≠ '.')).reverse
  let before := fullName.toList.take (fullName.length - name.length - 1)
  (if before.isEmpty then none else some (String.ofList before), String.ofList name)

def buildView [Probe] (s : Settings) (v : View) : Except Error ClassDecl := do
  let fullName := s.serverName v.name
  if fullName = "" then .error .unnamedView
  else
    let (package, name) := splitName fullName
    let build : Build Unit := do promote (← buildRenderMethod (runAll (buildEach s v.children)))
    let (_, d) ← build.run { target := viewClass package name }
    return d.target

end TwinView.Server
