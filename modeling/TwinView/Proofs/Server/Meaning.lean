import TwinView.Proofs.Server.Execution

/-!
What a plain template means, without a class: the characters and values that its nodes put out, one
after the other, under a binding of the parameters. Each piece of code stands for itself.
-/

namespace TwinView.Server

open Code

/-- A block on its own that needs nothing from the environment: its expression, and the methods that
belong to it. -/
def aloneCode? (b : CodeBlock) : Option (Expr × List Method) :=
  match (Script.compile {} (clientCode b)).1 with
  | .error _ => none
  | .ok t =>
    match t.hasExtras, t.methods with
    | false, m :: rest => some (inlined m rest)
    | _, _ => none

def findIn (ms : List Method) (name : String) : Option Method := ms.find? (·.name = name)

/-- The code of a block on its own, with a coercion around it. -/
def blockTerm (around : Expr → Expr) (b : CodeBlock) : Term :=
  match aloneCode? b with
  | some (e, ms) => termOf (findIn ms) (around e)
  | none => termOf (fun _ => none) .undefined

variable {ν : Type} (s : Settings) (w : World ν) (b : Binding ν)

def chars (text : String) : List (Event ν) := text.toList.map .char

def holds (test : CodeBlock) : Bool := w.truth (blockTerm id test) b

/-- The types whose values need no encoding: booleans and numbers. -/
def isBare : Ty → Bool
  | .boolean | .int | .long | .double | .number => true
  | _ => false

/-- The value of a block. What is marked as markup, and what needs no encoding, is written as it is, and
everything else encoded. Of text that is known, the characters count; a missing value has none. -/
def valueOutput (block : CodeBlock) : List (Event ν) :=
  match aloneCode? (unwrapMarkup block) with
  | none => []
  | some (e, ms) =>
    match block.kind, e with
    | .markup, .prim (.text text) _ => chars text
    | .markup, .prim (.char c) _ => [.char c]
    | .markup, _ => [.value "write" (termOf (findIn ms) e) b]
    | _, .prim .null _ | _, .prim .undefined _ => []
    | _, .prim (.text text) _ => chars (Markup.encode .content s.encodeNonAscii text)
    | _, .prim (.char c) _ => chars (Markup.encode .content s.encodeNonAscii c.toString)
    | _, _ =>
      [.value (if isBare e.resultType then "write" else "htmlEncode") (termOf (findIn ms) e) b]

def literalMarkup (mode : TextMode) (value : String) : String :=
  match mode with
  | .raw => value
  | .preformatted => Markup.encode .content s.encodeNonAscii value
  | .normal => Markup.encode .content s.encodeNonAscii
      (if s.normalizeWhitespace && value ≠ "" then Markup.normalize value else value)

def textMarkup (mode : TextMode) (value : String) : TextKind → String
  | .literal => literalMarkup s mode value
  | .comment => "<!--" ++ Markup.encode .comment false value ++ "-->"
  | .docType => "<!DOCTYPE " ++ Text.trim value ++ ">"
  | .unknown | .codeComment => ""

def flagText (name : String) : String :=
  if s.xhtmlStyle then " " ++ name ++ "=\"" ++ Markup.encode .quotedValue true name ++ "\""
  else " " ++ name

def attributeOutput (name : String) : Option Node → List (Event ν)
  | none => chars (" " ++ name)
  | some (.text .literal value _) =>
    if Vocabulary.isFlagAttribute name then (if value ≠ "" then chars (flagText s name) else [])
    else chars (" " ++ name ++ "=\"" ++ Markup.encode .quotedValue true value ++ "\"")
  | some (.code block) =>
    if Vocabulary.isFlagAttribute name then (if holds w b block then chars (flagText s name) else [])
    else chars (" " ++ name ++ "=\"") ++ valueOutput s b block ++ chars "\""
  | some _ => []

def wholeExpr (e : Expr) : Expr :=
  if e.resultType = .int then e
  else if e.resultType ∈ [.long, .double, .number] then .cast .int e false
  else .cast .int (.invokeHelper .double "coerceNumber" [e]) false

def mapExpr (e : Expr) : Expr :=
  if e.resultType = .map then e else .invokeHelper .map "coerceMap" [e]

def listExpr (e : Expr) : Expr :=
  if e.resultType = .list then e else .invokeHelper .collection "coerceCollection" [e]

def loopBindings (l : Loop) : List (Binding ν) :=
  match argumentBlock? l.count, argumentBlock? l.within, argumentBlock? l.each with
  | some count, _, _ =>
    let n := w.whole (blockTerm wholeExpr count) b
    let data :=
      match argumentBlock? l.data with
      | some data => w.object (blockTerm id data) b
      | none => b.data
    (List.range n.toNat).map fun (i : Nat) => { data, index := i, count := n, key := none }
  | none, some source, _ =>
    let entries := w.entries (blockTerm mapExpr source) b
    entries.zipIdx.map fun (p, i) =>
      { data := p.2, index := i, count := entries.length, key := some p.1 }
  | none, none, some source =>
    let items := w.items (blockTerm listExpr source) b
    items.zipIdx.map fun (x, i) => { data := x, index := i, count := items.length, key := none }
  | none, none, none => []

/-- The children of an element that are rendered, with what they are rendered to. -/
def shownChildren (mode : TextMode) (children : List (Node × List (Event ν))) :
    List (List (Event ν)) :=
  if s.normalizeWhitespace && mode = .normal then
    (Markup.trimEdges (isEdgeText ·.1) children).map (·.2)
  else children.map (·.2)

mutual

def nodeOutput (mode : TextMode) : Binding ν → Node → List (Event ν)
  | _, .text kind value _ => chars (textMarkup s mode value kind)
  | b, .code block => valueOutput s b block
  | b, .element ⟨tag, attributes, children, position⟩ =>
    let e : Element := ⟨tag, attributes, children, position⟩
    chars ("<" ++ tag) ++
      attributes.flatMap (fun a => attributeOutput s w b a.1 a.2) ++
      if e.canHaveChildren then
        chars ">" ++
          (shownChildren s (contentMode e mode)
            (children.zip (eachOutput (contentMode e mode) b children))).flatten ++
          chars ("</" ++ tag ++ ">")
      else chars (if s.xhtmlStyle then " />" else ">")
  | b, .choice ⟨branches, _⟩ => choiceOutput mode b branches
  | b, .branch ⟨test, children, _⟩ =>
    if test.all (holds w b) then (eachOutput mode b children).flatten else []
  | b, .loop ⟨each, within, count, data, children, position⟩ =>
    (loopBindings w b ⟨each, within, count, data, children, position⟩).flatMap fun b' =>
      (eachOutput mode b' children).flatten
  | _, .view _ | _, .call _ | _, .part _ => []

def eachOutput (mode : TextMode) : Binding ν → List Node → List (List (Event ν))
  | _, [] => []
  | b, n :: rest => nodeOutput mode b n :: eachOutput mode b rest

def choiceOutput (mode : TextMode) : Binding ν → List Branch → List (Event ν)
  | _, [] => []
  | b, ⟨some test, children, _⟩ :: rest =>
    if holds w b test then (eachOutput mode b children).flatten else choiceOutput mode b rest
  | b, ⟨none, children, _⟩ :: _ => (eachOutput mode b children).flatten

end

def viewOutput (v : View) : List (Event ν) := (eachOutput s w .normal b v.children).flatten

def isAlone (b : CodeBlock) : Bool := (aloneCode? b).isSome

def isPlainAttribute (e : Element) (name : String) (value : Option Node) : Bool :=
  !e.isLinkAttribute name &&
    match value with
    | none => true
    | some (.text .literal _ _) => true
    | some (.code b) => b.kind = .expression && isAlone b
    | some _ => false

mutual

/-- A node that only puts out text and values, under conditions and in loops. -/
def isPlain : Node → Bool
  | .text kind _ _ => kind ≠ .unknown
  | .code b => b.kind ≠ .statement && isAlone (unwrapMarkup b)
  | .element ⟨tag, attributes, children, position⟩ =>
    let e : Element := ⟨tag, attributes, children, position⟩
    !e.isTag "script" && !e.isTag "style" &&
      attributes.all (fun a => isPlainAttribute e a.1 a.2) && arePlain children
  | .choice ⟨branches, _⟩ => isPlainChoice branches
  | .branch ⟨test, children, _⟩ => test.all isAlone && arePlain children
  | .loop ⟨each, within, count, data, children, _⟩ =>
    [each, within, count, data].all (fun n => (argumentBlock? n).all isAlone) && arePlain children
  | .view _ | .call _ | .part _ => false

def arePlain : List Node → Bool
  | [] => true
  | n :: rest => isPlain n && arePlain rest

def isPlainChoice : List Branch → Bool
  | [] => true
  | ⟨some test, children, _⟩ :: rest => isAlone test && arePlain children && isPlainChoice rest
  | ⟨none, children, _⟩ :: rest => rest.isEmpty && arePlain children

end

def isPlainView (v : View) : Bool := arePlain v.children

end TwinView.Server
