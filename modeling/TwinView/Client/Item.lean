import TwinView.Client.Data
import TwinView.Markup
import TwinView.Settings
import TwinView.Template.Vocabulary

/-!
Views as the client sees them: nested lists of a tag, an object of attributes, and items. Commands
become elements whose tags start with a dollar sign, and code blocks become functions.
-/

namespace TwinView.Client

inductive Value
  /-- The attribute is present without a value. -/
  | null
  /-- The attribute is a flag that is on. -/
  | on
  | text (value : String)
  | code (source : String)
deriving Repr

inductive Item
  | text (value : String)
  | code (source : String)
  /-- A comment of the code, which is no item of the list it stands in. -/
  | note (value : String)
  /-- A comment or a document type: a tag and its text. -/
  | special (tag value : String)
  | element (tag : String) (attributes : List (String × Value)) (children : List Item)

namespace Item

def isData : Item → Bool
  | .note _ => false
  | _ => true

/-- Whether the item is text that normalization would drop at the edge of its list. -/
def isEdgeText : Item → Bool
  | .text value => Markup.isNewlines value
  | _ => false

def hasContent : Item → Bool
  | .element _ attributes children => !attributes.isEmpty || !children.isEmpty
  | _ => false

end Item

mutual

/-- The text of a node where only text makes sense. -/
def plainText : Node → String
  | .text _ value _ => value
  | .code b => b.value
  | .element ⟨_, _, children, _⟩ => plainTexts children
  | _ => ""

def plainTexts : List Node → String
  | [] => ""
  | n :: rest => plainText n ++ plainTexts rest

end

variable (s : Settings)

def layoutOf : Layout := { newline := s.newline, indent := s.indent }

def blockCode (b : CodeBlock) : String := b.clientCode (layoutOf s).isPretty

def expressionCode (value : String) : String := blockCode s { kind := .expression, value }

/-- The value of an element's attribute. Code decides on the client; a flag with any other value is
on. -/
def attributeValue (name : String) : Option Node → Value
  | some (.code b) => .code (blockCode s b)
  | value =>
    if Vocabulary.isFlagAttribute name then .on
    else
      match value with
      | none => .null
      | some (.text .comment _ _) => .text ""
      | some n => .text (plainText n)

/-- The value of a command's attribute, which is code also where it is written as text. -/
def commandValue : Node → Value
  | .code b => .code (blockCode s b)
  | n => .code (expressionCode s (plainText n))

def viewValue : Node → Value
  | .code b =>
    if b.kind = .expression then .code (expressionCode s (s.clientName b.value))
    else .code (blockCode s b)
  | n => .code (expressionCode s (s.clientName (plainText n)))

def commandAttributes (given : List (String × Option Node)) : List (String × Value) :=
  given.filterMap fun (name, value) => value.map fun n => (name, commandValue s n)

def testAttributes (test : Option CodeBlock) : List (String × Value) :=
  test.toList.map fun b => ("test", .code (blockCode s b))

mutual

def itemOf : Node → Except Error Item
  | .text .literal value _ => return .text value
  | .text .unknown value _ =>
    return .code (blockCode s { kind := .markup, value := stringLiteral value })
  | .text .comment value _ => return .special "!" value
  | .text .codeComment value _ => return .note value
  | .text .docType value _ => return .special "!DOCTYPE" value
  | .code b => return .code (blockCode s b)
  | .element ⟨tag, attributes, children, _⟩ => do
    let values := attributes.map fun (name, value) => (name, attributeValue s name value)
    return .element tag values (← itemsOf children)
  | .view v => .error (.template .nestedView v.position)
  | .choice ⟨branches, _⟩ => return .element "$xor" [] (← branchItems branches)
  | .branch ⟨test, children, _⟩ => return .element "$if" (testAttributes s test) (← itemsOf children)
  | .loop ⟨each, within, count, data, children, _⟩ => do
    let values := commandAttributes s [
      ("each", each), ("in", within), ("count", count), ("data", data)]
    return .element "$for" values (← itemsOf children)
  | .call ⟨view, data, index, count, key, _, children, _⟩ => do
    let values := view.toList.map (fun n => ("view", viewValue s n)) ++ commandAttributes s [
      ("data", data), ("index", index), ("count", count), ("key", key)]
    return .element "$call" values (← itemsOf children)
  | .part ⟨name, children, _⟩ => return .element "$part" [("name", .text name)] (← itemsOf children)

def itemsOf : List Node → Except Error (List Item)
  | [] => return []
  | n :: rest => do
    let item ← itemOf n
    return item :: (← itemsOf rest)

def branchItems : List Branch → Except Error (List Item)
  | [] => return []
  | ⟨test, children, _⟩ :: rest => do
    let item := Item.element "$if" (testAttributes s test) (← itemsOf children)
    return item :: (← branchItems rest)

end

end TwinView.Client
