import TwinView.Text.Blank
import TwinView.Text.Position
import TwinView.Text.Word

/-!
Embedded code. A block is a fragment of the binding language; on the client it is wrapped in a
function that takes as many of the bound names as the fragment needs.
-/

namespace TwinView

inductive BlockKind
  | expression
  /-- The value is written as markup. -/
  | markup
  | statement
deriving DecidableEq, Repr

structure CodeBlock where
  kind : BlockKind
  value : String
  position : Option Position := none
deriving DecidableEq, Repr

namespace CodeBlock

open Text

/-- The names that a fragment may mention, in the order of the parameters. -/
def boundNames : List String := ["data", "index", "count", "key"]

def opening (b : CodeBlock) : String :=
  match b.kind with
  | .expression => "<%="
  | .markup => "<%#"
  | .statement => "<%"

def closing : String := "%>"

def display (b : CodeBlock) : String := b.opening ++ b.value ++ closing

def mentions (b : CodeBlock) (name : String) : Bool := Text.mentions name b.value

/-- How many bound names come up to the last one that is mentioned. -/
def arityOf (mentioned : String → Bool) : List String → Nat
  | [] => 0
  | name :: rest =>
    match arityOf mentioned rest with
    | 0 => if mentioned name then 1 else 0
    | n + 1 => n + 2

def arity (b : CodeBlock) : Nat := arityOf b.mentions boundNames

def clientOpening (b : CodeBlock) (pretty : Bool) : String :=
  let params := (if pretty then ", " else ",").intercalate (boundNames.take b.arity)
  "function(" ++ params ++
    match b.kind, pretty with
    | .expression, false => ")\x7breturn("
    | .expression, true => ") \x7b return ("
    | .markup, false => ")\x7breturn duel.raw("
    | .markup, true => ") \x7b return duel.raw("
    | .statement, false => ")\x7b"
    | .statement, true => ") \x7b "

def clientClosing (b : CodeBlock) (pretty : Bool) : String :=
  match b.kind, pretty with
  | .expression, false => ");\x7d"
  | .expression, true => "); \x7d"
  | .markup, false => ");\x7d"
  | .markup, true => "); \x7d"
  | .statement, false => "\x7d"
  | .statement, true => " \x7d"

def clientCode (b : CodeBlock) (pretty : Bool) : String :=
  b.clientOpening pretty ++ trim b.value ++ b.clientClosing pretty

def asExpression (b : CodeBlock) : CodeBlock := { b with kind := .expression }

end CodeBlock

end TwinView
