import TwinView.Template.CodeBlock

/-!
Templates. A template is a tree of nodes: text of several kinds, code blocks, elements and commands.
The bodies of elements and commands take the type of their children as a parameter, so that one type
serves for nodes and for what is made of them.
-/

namespace TwinView

inductive TextKind
  | literal
  | unknown
  | comment
  /-- A comment of the template, which never reaches the rendered markup. -/
  | codeComment
  | docType
deriving DecidableEq, Repr

structure ElementOf (ν : Type) where
  tag : String
  /-- In order; a name without a value has `none`. -/
  attributes : List (String × Option ν) := []
  children : List ν := []
  position : Option Position := none

structure ViewOf (ν : Type) where
  name : String
  clientOnly : Bool := false
  serverOnly : Bool := false
  children : List ν := []
  position : Option Position := none

/-- Content under a test; without a test it is the fallback. -/
structure BranchOf (ν : Type) where
  test : Option CodeBlock := none
  children : List ν := []
  position : Option Position := none

structure ChoiceOf (ν : Type) where
  branches : List (BranchOf ν) := []
  position : Option Position := none

structure LoopOf (ν : Type) where
  each : Option ν := none
  within : Option ν := none
  count : Option ν := none
  data : Option ν := none
  children : List ν := []
  position : Option Position := none

structure CallOf (ν : Type) where
  view : Option ν := none
  data : Option ν := none
  index : Option ν := none
  count : Option ν := none
  key : Option ν := none
  defer : Bool := false
  children : List ν := []
  position : Option Position := none

structure PartOf (ν : Type) where
  name : String := ""
  children : List ν := []
  position : Option Position := none

inductive Node
  | text (kind : TextKind) (value : String) (position : Option Position)
  | code (block : CodeBlock)
  | element (body : ElementOf Node)
  | view (body : ViewOf Node)
  | choice (body : ChoiceOf Node)
  | branch (body : BranchOf Node)
  | loop (body : LoopOf Node)
  | call (body : CallOf Node)
  | part (body : PartOf Node)

abbrev Element := ElementOf Node
abbrev View := ViewOf Node
abbrev Branch := BranchOf Node
abbrev Choice := ChoiceOf Node
abbrev Loop := LoopOf Node
abbrev Call := CallOf Node
abbrev Part := PartOf Node

namespace Node

def position : Node → Option Position
  | .text _ _ p => p
  | .code b => b.position
  | .element e => e.position
  | .view v => v.position
  | .choice c => c.position
  | .branch b => b.position
  | .loop l => l.position
  | .call c => c.position
  | .part p => p.position

def block? : Node → Option CodeBlock
  | .code b => some b
  | _ => none

def literal? : Node → Option String
  | .text .literal value _ => some value
  | _ => none

end Node

def isElementSpace (c : Char) : Bool :=
  c = ' ' || c = '\t' || c = '\n' || c = '\r' || c = '\x0C'

def Node.isSpace (n : Node) : Bool :=
  match n.literal? with
  | some value => value.toList.all isElementSpace
  | none => false

/-- One child of a call: a part given by name, or loose content, which may be mere space. -/
inductive Supply (α : Type)
  | part (body : PartOf α)
  | loose (space : Bool) (content : α)

namespace Supply

def contents {α : Type} : List (Supply α) → List α
  | [] => []
  | .part _ :: rest => contents rest
  | .loose _ content :: rest => content :: contents rest

def parts {α : Type} : List (Supply α) → List (PartOf α)
  | [] => []
  | .part body :: rest => body :: parts rest
  | .loose _ _ :: rest => parts rest

/-- The parts in order. Loose content from the first that is not mere space is gathered into one
unnamed part, which stands where that content starts. -/
def gather {α : Type} (position : Option Position) : List (Supply α) → List (PartOf α)
  | [] => []
  | .part body :: rest => body :: gather position rest
  | .loose true _ :: rest => gather position rest
  | .loose false content :: rest =>
    { name := "", children := content :: contents rest, position } :: parts rest

end Supply

def Node.supply : Node → Supply Node
  | .part body => .part body
  | n => .loose n.isSpace n

def CallOf.parts (c : Call) : List Part := Supply.gather c.position (c.children.map Node.supply)

end TwinView
