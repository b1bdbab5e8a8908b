import TwinView.Client.Data
import TwinView.Server.Fragment
import TwinView.Template.Vocabulary

/-!
Attributes of elements. What the server cannot evaluate is left to a script behind the element; what
depends on the environment is written by the server if it is defined and left to the client otherwise.
-/

namespace TwinView.Server

open Code

/-- An attribute whose value may turn out to be undefined. -/
structure Hybrid where
  value : Expr
  name : String
  code : String
  arity : Nat

structure Pending where
  /-- How many of the bound values the deferred attributes need. -/
  arity : Nat := 0
  deferred : List (String × Client.Data) := []
  hybrids : List Hybrid := []

def Pending.isEmpty (p : Pending) : Bool := p.deferred.isEmpty && p.hybrids.isEmpty

def Pending.defer (p : Pending) (name : String) (b : CodeBlock) : Pending :=
  { p with
    deferred := Json.put name (.snippet (clientCode b)) p.deferred
    arity := max p.arity b.arity }

def putAttribute (name : String) (stmt : Stmt) : Build Unit := do
  put (Markup.openAttribute name)
  flush
  add stmt
  put Markup.closeAttribute

def flagMarkup (s : Settings) (name : String) : String :=
  Markup.wholeAttribute name (if s.xhtmlStyle then some name else none)

def buildFlag [Probe] (s : Settings) (p : Pending) (name : String) : Node → Build Pending
  | .text .literal value _ => do
    if value ≠ "" then put (flagMarkup s name)
    return p
  | .code b => do
    match ← fragment? b false with
    | .ok f =>
      flush
      addCondition f.expr (put (flagMarkup s name))
      return p
    | .error _ => return p.defer name b
  | _ => return p

def buildLink (s : Settings) (e : Element) (p : Pending) (name : String) : Node → Build Pending
  | .text .literal value _ => do
    putAttribute name (writeSafe s (transformedUrl (.text value)))
    return p
  | .code block => do
    match ← fragment? (unwrapMarkup block) true with
    | .ok f =>
      putAttribute name (writeValue s block (transformedUrl f.expr))
      return p
    | .error _ => return p.defer name block
  | n => throw (.template .attributeValue (n.position <|> e.position))

def buildPlain [Probe] (s : Settings) (e : Element) (p : Pending) (name : String) : Node → Build Pending
  | .text .literal value _ => do
    put (Markup.wholeAttribute name (some value))
    return p
  | .code block => do
    let b := unwrapMarkup block
    match ← fragment? b true with
    | .error _ => return p.defer name b
    | .ok f =>
      if f.hybrid then
        flush
        let value ← declare .object "val_" f.expr
        addCondition (isDefined value) (putAttribute name (writeValue s block value))
        return { p with hybrids := p.hybrids ++ [{ value, name, code := clientCode b, arity := b.arity }] }
      else
        putAttribute name (writeValue s block f.expr)
        return p
  | n => throw (.template .attributeValue (n.position <|> e.position))

def buildAttributes [Probe] (s : Settings) (e : Element) :
    Pending → List (String × Option Node) → Build Pending
  | p, [] => return p
  | p, (name, none) :: rest => do
    put (Markup.wholeAttribute name none)
    buildAttributes s e p rest
  | p, (name, some value) :: rest => do
    let p ←
      if Vocabulary.isFlagAttribute name then buildFlag s p name value
      else if e.isLinkAttribute name then buildLink s e p name value
      else buildPlain s e p name value
    buildAttributes s e p rest

inductive ElementId
  | declared (id : Expr)
  | given (id : String)

def someUndefined : List Hybrid → Option Expr
  | [] => none
  | h :: rest => some (rest.foldl (fun test h => .operate .or test (isUndefined h.value))
      (isUndefined h.value))

/-- Makes sure that scripts find the element. If only hybrid values are pending, a new id is written
only if one of them is undefined. -/
def buildElementId [Probe] (e : Element) (p : Pending) : Build ElementId := do
  match e.attribute? "id" with
  | none =>
    let id ← declareId
    match p.deferred.isEmpty, someUndefined p.hybrids with
    | true, some test =>
      flush
      addCondition test (putAttribute "id" (write id))
    | true, none => pure ()
    | false, _ => putAttribute "id" (write id)
    return .declared id
  | some (.text .literal value _) => return .given value
  | some n => throw (.template .idValue (n.position <|> e.position))

def putAttributeCall (attributes : List (String × Client.Data)) (id : ElementId) (arity : Nat) :
    Build Unit := do
  ensureExtras false
  put ("duel(" ++ (Client.Data.object attributes).write .compact .script 1 ++ ")(")
  putBound arity
  putCall
  match id with
  | .declared id =>
    flush
    add (writeData id)
  | .given id => put ((Client.Data.text id).write .compact .script 1)
  put ",1);"

def putScriptTag (s : Settings) : Build Unit := do
  putScriptOpen s false
  put Markup.closeTag

/-- The calls of the hybrid attributes, each made if its value is undefined. If no script element is
open yet, the first call that is made opens it and sets `opened`. -/
def buildHybridCalls [Probe] (s : Settings) (id : ElementId) (opened : Option Expr) :
    List Hybrid → Build Unit
  | [] => return
  | h :: rest => do
    flush
    addCondition (isUndefined h.value) do
      match opened with
      | some flag =>
        noteScript
        let tag ← inFrame false (putScriptTag s)
        add (.cond (.apply .not flag) (.expr (.operate .assign flag (.bool true)) :: tag) [])
      | none => pure ()
      putAttributeCall [(h.name, .snippet h.code)] id h.arity
    buildHybridCalls s id opened rest

def buildPending [Probe] (s : Settings) (p : Pending) (id : ElementId) : Build Unit := do
  if p.deferred.isEmpty then
    let flag ← declare .boolean "hasTags_" (.bool false)
    buildHybridCalls s id (some flag) p.hybrids
    addCondition flag (put (Markup.endTag "script"))
  else
    noteScript
    putScriptTag s
    putAttributeCall p.deferred id p.arity
    buildHybridCalls s id none p.hybrids
    put (Markup.endTag "script")

end TwinView.Server
