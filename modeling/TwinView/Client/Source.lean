import TwinView.Client.Item
import TwinView.Client.Namespaces
import TwinView.Markup

/-!
The client's source text of views.
-/

namespace TwinView.Client

open Text

variable (s : Settings)

def line (depth : Nat) : String := (layoutOf s).line depth

def convertText (value : String) : String :=
  if s.convertLineEndings then
    let value := if s.indent ≠ "\t" then replaceChar '\t' s.indent value else value
    if s.newline ≠ "\n" then replaceChar '\n' s.newline value else value
  else value

/-- A text as a string literal; `verbatim` tells that its blanks count. -/
def writeText (verbatim : Bool) (value : String) : String :=
  if !verbatim && s.normalizeWhitespace && value ≠ "" then stringLiteral (Markup.normalize value)
  else stringLiteral (convertText s value)

def writeValue (verbatim : Bool) : Value → String
  | .null => "null"
  | .on => "true"
  | .text value => writeText s verbatim value
  | .code source => source

/-- The object of attributes; a lone one stands on the same line. -/
def writeAttributes (depth : Nat) (verbatim : Bool) (attributes : List (String × Value)) : String :=
  let written := attributes.map fun (name, value) =>
    writeText s verbatim name ++ " : " ++ writeValue s verbatim value
  match written with
  | [] => ""
  | [one] => ", \x7b " ++ one ++ " \x7d"
  | several =>
    ", \x7b" ++ ",".intercalate (several.map (line s (depth + 1) ++ ·)) ++ line s depth ++ "\x7d"

def isVerbatimTag (tag : String) : Bool :=
  sameIgnoringCase tag "pre" || sameIgnoringCase tag "script"

/-- Writes items on lines of their own. A comma stands before an item if `comma` says so: before the
first if any item takes a place, and behind an item that takes one if another follows. -/
def writeList (depth : Nat) : Bool → List (Item × String) → String
  | _, [] => ""
  | comma, (item, written) :: rest =>
    let more := item.isData && rest.any (·.1.isData)
    (if comma then "," else "") ++ line s depth ++ written ++ writeList depth more rest

/-- The items that are written: with normalization, text that is only line breaks is dropped at the
edges. -/
def visible (verbatim : Bool) (items : List (Item × String)) : List (Item × String) :=
  if s.normalizeWhitespace && !verbatim then Markup.trimEdges (·.1.isEdgeText) items else items

def writeChildren (depth : Nat) (items : List (Item × String)) : String :=
  if items.isEmpty then ""
  else writeList s (depth + 1) (items.any (·.1.isData)) items ++ line s depth

mutual

def writeItem (depth : Nat) (verbatim : Bool) : Item → String
  | .text value => writeText s verbatim value
  | .code source => source
  | .note value => blockComment value
  | .special tag value =>
    let content :=
      if value = "" then ""
      else "," ++ line s (depth + 1) ++ writeText s verbatim value ++ line s depth
    "[" ++ writeText s verbatim tag ++ content ++ "]"
  | .element tag attributes children =>
    let verbatim := verbatim || isVerbatimTag tag
    let items := writeItems (depth + 1) verbatim children
    "[" ++ writeText s verbatim tag ++ writeAttributes s (depth + 1) verbatim attributes ++
      writeChildren s depth (visible s verbatim items) ++ "]"

def writeItems (depth : Nat) (verbatim : Bool) : List Item → List (Item × String)
  | [] => []
  | item :: rest => (item, writeItem depth verbatim item) :: writeItems depth verbatim rest

end

/-- What a view is bound to: its root, or a fragment of several. -/
def writeRoots : List Node → Except Error String
  | [root] => do
    let item ← itemOf s root
    return (if item.hasContent then line s 1 else "") ++ writeItem s 1 false item
  | roots => return writeItem s 0 false (.element "" [] (← itemsOf s roots))

def writeView (name : String) (v : View) : Except Error String := do
  let roots ← writeRoots s v.children
  return (if isRoot name then "var " else "") ++ name ++ " = duel(" ++ roots ++ ");" ++ line s 0

/-- Views one after the other; `seen` are the namespaces declared before. -/
def writeViews : List String → List View → Except Error String
  | _, [] => return ""
  | seen, v :: rest =>
    if v.serverOnly then writeViews seen rest
    else
      let name := s.clientName v.name
      match declareNamespaces (layoutOf s) { names := seen } name with
      | (.error _, _) => .error (.template (.viewName name) v.position)
      | (.ok grew, st) => do
        let gap := if grew then line s 0 else ""
        let written ← writeView s name v
        return line s 0 ++ st.output ++ gap ++ written ++ (← writeViews st.names rest)

def compile (views : List View) : Except Error String :=
  return "/*global duel */" ++ line s 0 ++ (← writeViews s [] views)

end TwinView.Client
