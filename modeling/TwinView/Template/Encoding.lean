import TwinView.Json.Decode
import TwinView.Template.Basic

/-!
Templates as JSON. A node is an object with one key, which tells its kind; commands have a second
such object inside. Reading takes a bound on the nesting of lists and objects, of which each one it
enters uses up one.
-/

namespace TwinView

namespace Json

def tagged : Json → Option (String × Json)
  | .obj [(tag, body)] => some (tag, body)
  | _ => none

/-- Goes into a list or an object, if the bound allows one more. -/
def entering {α : Type} (bound : Nat) (read : Nat → Option α) : Option α :=
  match bound with
  | 0 => none
  | n + 1 => read n

end Json

namespace Position

def toJson (p : Position) : Json :=
  .obj [("index", .int p.index), ("line", .int p.line), ("column", .int p.column)]

def ofJson? (bound : Nat) (j : Json) : Option Position :=
  Json.entering bound fun _ => do
    match ← j.fields ["index", "line", "column"] with
    | [some index, some line, some column] =>
      return ⟨← index.asIndex, ← line.asIndex, ← column.asIndex⟩
    | _ => none

end Position

def BlockKind.tag : BlockKind → String
  | .expression => "expression"
  | .markup => "markup"
  | .statement => "statement"

def BlockKind.ofTag? : String → Option BlockKind
  | "expression" => some .expression
  | "markup" => some .markup
  | "statement" => some .statement
  | _ => none

/-- A kind is its name, or an object that has the name as its key and null as its value. -/
def BlockKind.ofJson? (bound : Nat) : Json → Option BlockKind
  | .str tag => ofTag? tag
  | .obj [(tag, .null)] => Json.entering bound fun _ => ofTag? tag
  | _ => none

def positionField (bound : Nat) : Option Json → Option (Option Position) :=
  Json.optional (Position.ofJson? bound)

def positionJson : Option Position → Json
  | none => .null
  | some p => p.toJson

namespace CodeBlock

def toJson (b : CodeBlock) : Json := .obj [
  ("kind", .str b.kind.tag), ("value", .str b.value), ("position", positionJson b.position)]

def ofJson? (bound : Nat) (j : Json) : Option CodeBlock :=
  Json.entering bound fun bound => do
    match ← j.fields ["kind", "value", "position"] with
    | [some kind, some value, position] =>
      return {
        kind := ← BlockKind.ofJson? bound kind
        value := ← value.asString
        position := ← positionField bound position }
    | _ => none

end CodeBlock

def TextKind.tag : TextKind → String
  | .literal => "Literal"
  | .unknown => "Unknown"
  | .comment => "Comment"
  | .codeComment => "CodeComment"
  | .docType => "DocType"

def TextKind.ofTag? : String → Option TextKind
  | "Literal" => some .literal
  | "Unknown" => some .unknown
  | "Comment" => some .comment
  | "CodeComment" => some .codeComment
  | "DocType" => some .docType
  | _ => none

def textJson (value : String) (position : Option Position) : Json :=
  .obj [("value", .str value), ("position", positionJson position)]

def nodeOfText? (kind : TextKind) (bound : Nat) (j : Json) : Option Node :=
  Json.entering bound fun bound => do
    match ← j.fields ["value", "position"] with
    | [some value, position] => return .text kind (← value.asString) (← positionField bound position)
    | _ => none

def blockJson : Option CodeBlock → Json
  | none => .null
  | some b => b.toJson

mutual

def Node.toJson : Node → Json
  | .text kind value position => .obj [(kind.tag, textJson value position)]
  | .code b => .obj [("CodeBlock", b.toJson)]
  | .element e => .obj [("Element", elementJson e)]
  | .view v => command "View" (viewJson v)
  | .choice ⟨branches, position⟩ =>
    command "Xor" (.obj [
      ("branches", .arr (branchesJson branches)), ("position", positionJson position)])
  | .branch b => command "If" (branchJson b)
  | .loop ⟨each, within, count, data, children, position⟩ =>
    command "For" (.obj [
      ("each", optionJson each), ("in", optionJson within), ("count", optionJson count),
      ("data", optionJson data), ("children", .arr (nodesJson children)),
      ("position", positionJson position)])
  | .call c => command "Call" (callJson c)
  | .part p => command "Part" (partJson p)
where
  command (tag : String) (body : Json) : Json := .obj [("Command", .obj [(tag, body)])]

def elementJson : Element → Json
  | ⟨tag, attributes, children, position⟩ => .obj [
    ("tag", .str tag), ("attributes", .obj (attributesJson attributes)),
    ("children", .arr (nodesJson children)), ("position", positionJson position)]

def viewJson : View → Json
  | ⟨name, clientOnly, serverOnly, children, position⟩ => .obj [
    ("name", .str name), ("clientOnly", .bool clientOnly), ("serverOnly", .bool serverOnly),
    ("children", .arr (nodesJson children)), ("position", positionJson position)]

def branchJson : Branch → Json
  | ⟨test, children, position⟩ => .obj [
    ("test", blockJson test), ("children", .arr (nodesJson children)),
    ("position", positionJson position)]

def callJson : Call → Json
  | ⟨view, data, index, count, key, defer, children, position⟩ => .obj [
    ("view", optionJson view), ("data", optionJson data), ("index", optionJson index),
    ("count", optionJson count), ("key", optionJson key), ("defer", .bool defer),
    ("children", .arr (nodesJson children)), ("position", positionJson position)]

def partJson : Part → Json
  | ⟨name, children, position⟩ => .obj [
    ("name", .str name), ("children", .arr (nodesJson children)),
    ("position", positionJson position)]

def nodesJson : List Node → List Json
  | [] => []
  | n :: rest => n.toJson :: nodesJson rest

def branchesJson : List Branch → List Json
  | [] => []
  | b :: rest => branchJson b :: branchesJson rest

def attributesJson : List (String × Option Node) → List (String × Json)
  | [] => []
  | (name, value) :: rest => (name, optionJson value) :: attributesJson rest

def optionJson : Option Node → Json
  | none => .null
  | some n => n.toJson

end

mutual

def Node.ofJson? : Nat → Json → Option Node
  | 0, _ => none
  | bound + 1, j => do
    let (tag, body) ← j.tagged
    match TextKind.ofTag? tag with
    | some kind => nodeOfText? kind bound body
    | none =>
      match tag with
      | "CodeBlock" => (CodeBlock.ofJson? bound body).map .code
      | "Element" => (elementOfJson? bound body).map .element
      | "Command" => commandOfJson? bound body
      | _ => none

def commandOfJson? : Nat → Json → Option Node
  | 0, _ => none
  | bound + 1, j => do
    match ← j.tagged with
    | ("View", body) => (viewOfJson? bound body).map .view
    | ("Xor", body) => (choiceOfJson? bound body).map .choice
    | ("If", body) => (branchOfJson? bound body).map .branch
    | ("For", body) => (loopOfJson? bound body).map .loop
    | ("Call", body) => (callOfJson? bound body).map .call
    | ("Part", body) => (partOfJson? bound body).map .part
    | _ => none

def elementOfJson? : Nat → Json → Option Element
  | 0, _ => none
  | bound + 1, j => do
    match ← j.fields ["tag", "attributes", "children", "position"] with
    | [some tag, attributes, children, position] =>
      return {
        tag := ← tag.asString
        attributes := ← Json.withDefault [] (attributesOfJson? bound) attributes
        children := ← Json.withDefault [] (nodesOfJson? bound) children
        position := ← positionField bound position }
    | _ => none

def viewOfJson? : Nat → Json → Option View
  | 0, _ => none
  | bound + 1, j => do
    match ← j.fields ["name", "clientOnly", "serverOnly", "children", "position"] with
    | [some name, clientOnly, serverOnly, children, position] =>
      return {
        name := ← name.asString
        clientOnly := ← Json.withDefault false Json.asBool clientOnly
        serverOnly := ← Json.withDefault false Json.asBool serverOnly
        children := ← Json.withDefault [] (nodesOfJson? bound) children
        position := ← positionField bound position }
    | _ => none

def branchOfJson? : Nat → Json → Option Branch
  | 0, _ => none
  | bound + 1, j => do
    match ← j.fields ["test", "children", "position"] with
    | [test, children, position] =>
      return {
        test := ← Json.optional (CodeBlock.ofJson? bound) test
        children := ← Json.withDefault [] (nodesOfJson? bound) children
        position := ← positionField bound position }
    | _ => none

def choiceOfJson? : Nat → Json → Option Choice
  | 0, _ => none
  | bound + 1, j => do
    match ← j.fields ["branches", "position"] with
    | [branches, position] =>
      return {
        branches := ← Json.withDefault [] (branchesOfJson? bound) branches
        position := ← positionField bound position }
    | _ => none

def loopOfJson? : Nat → Json → Option Loop
  | 0, _ => none
  | bound + 1, j => do
    match ← j.fields ["each", "in", "count", "data", "children", "position"] with
    | [each, within, count, data, children, position] =>
      return {
        each := ← Json.optional (Node.ofJson? bound) each
        within := ← Json.optional (Node.ofJson? bound) within
        count := ← Json.optional (Node.ofJson? bound) count
        data := ← Json.optional (Node.ofJson? bound) data
        children := ← Json.withDefault [] (nodesOfJson? bound) children
        position := ← positionField bound position }
    | _ => none

def callOfJson? : Nat → Json → Option Call
  | 0, _ => none
  | bound + 1, j => do
    let names := ["view", "data", "index", "count", "key", "defer", "children", "position"]
    match ← j.fields names with
    | [view, data, index, count, key, defer, children, position] =>
      return {
        view := ← Json.optional (Node.ofJson? bound) view
        data := ← Json.optional (Node.ofJson? bound) data
        index := ← Json.optional (Node.ofJson? bound) index
        count := ← Json.optional (Node.ofJson? bound) count
        key := ← Json.optional (Node.ofJson? bound) key
        defer := ← Json.withDefault false Json.asBool defer
        children := ← Json.withDefault [] (nodesOfJson? bound) children
        position := ← positionField bound position }
    | _ => none

def partOfJson? : Nat → Json → Option Part
  | 0, _ => none
  | bound + 1, j => do
    match ← j.fields ["name", "children", "position"] with
    | [name, children, position] =>
      return {
        name := ← Json.withDefault "" Json.asString name
        children := ← Json.withDefault [] (nodesOfJson? bound) children
        position := ← positionField bound position }
    | _ => none

def nodesOfJson? : Nat → Json → Option (List Node)
  | bound + 1, .arr items => items.mapM fun j => Node.ofJson? bound j
  | _, _ => none

def branchesOfJson? : Nat → Json → Option (List Branch)
  | bound + 1, .arr items => items.mapM fun j => branchOfJson? bound j
  | _, _ => none

/-- Attributes in order; a repeated name keeps its first place and takes its last value. -/
def attributesOfJson? : Nat → Json → Option (List (String × Option Node))
  | bound + 1, .obj members => do
    let read ← members.mapM fun (name, j) =>
      (Json.nullable (Node.ofJson? bound) j).map fun value => (name, value)
    return read.foldl (fun done (name, value) => Json.put name value done) []
  | _, _ => none

end

end TwinView
