import TwinView.Json.Basic
import TwinView.Error
import TwinView.Number.Writing
import TwinView.Text.Names

/-!
Data written as literals of client code, or as JSON. Snippets of code are written as they are.
-/

namespace TwinView.Client

open Text

inductive Data
  | null
  | undefined
  | bool (value : Bool)
  | number (value : Double)
  | text (value : String)
  | list (items : List Data)
  | object (members : List (String × Data))
  /-- Code that is written as it is. -/
  | snippet (code : String)

mutual

def Data.ofJson : Json → Data
  | .null => .null
  | .void => .null
  | .bool b => .bool b
  | .int n => .number (Double.ofInt n)
  | .float x => .number x
  | .str s => .text s
  | .arr items => .list (Data.ofItems items)
  | .obj members => .object (Data.ofMembers members)

def Data.ofItems : List Json → List Data
  | [] => []
  | j :: rest => Data.ofJson j :: Data.ofItems rest

def Data.ofMembers : List (String × Json) → List (String × Data)
  | [] => []
  | (name, j) :: rest => (name, Data.ofJson j) :: Data.ofMembers rest

end

/-- Line breaks and indentation of the emitted text. -/
structure Layout where
  newline : String := ""
  indent : String := ""
deriving DecidableEq, Repr

def Layout.compact : Layout := {}

def Layout.isPretty (l : Layout) : Bool := l.newline ≠ "" || l.indent ≠ ""

def Layout.line (l : Layout) (depth : Nat) : String := l.newline ++ repeated depth l.indent

inductive Format
  | script
  | json
deriving DecidableEq, Repr

def Format.quote : Format → Char
  | .script => '\''
  | .json => '"'

def escapeChar (format : Format) (c : Char) : List Char :=
  if c = format.quote || c = '\\' then ['\\', c]
  else if c = '\t' then ['\\', 't']
  else if c = '\n' then ['\\', 'n']
  else if c = '\r' then ['\\', 'r']
  else if c = '\x0C' then ['\\', 'f']
  else if c = '\x08' then ['\\', 'b']
  else if isPrintable c then [c]
  else unitEscapes c

def quoted (format : Format) (s : String) : String :=
  String.ofList (format.quote :: s.toList.flatMap (escapeChar format) ++ [format.quote])

def stringLiteral (s : String) : String := quoted .script s

def propertyName (format : Format) (name : String) : String :=
  if format = .script && isSimpleName name then name else quoted format name

def numeral (x : Double) : String :=
  if x.isNaN then "NaN"
  else if x.isInfinite then x.withSign "Infinity"
  else
    match x.toInt? with
    | some n =>
      if n.natAbs < 0x20000000000000 then (if n < 0 then "-" else "") ++ n.natAbs.repr else x.plain
    | none => x.plain

/-- Puts written items between brackets: a lone item on the same line, several on lines of their
own. -/
def enclose (l : Layout) (depth : Nat) (left right : String) : List String → String
  | [] => left ++ right
  | [item] => if l.isPretty then left ++ " " ++ item ++ " " ++ right else left ++ item ++ right
  | items =>
    if l.isPretty then
      left ++ ",".intercalate (items.map (l.line (depth + 1) ++ ·)) ++ l.line depth ++ right
    else left ++ ",".intercalate items ++ right

mutual

def Data.write (l : Layout) (format : Format) (depth : Nat) : Data → String
  | .null => "null"
  | .undefined => "undefined"
  | .bool b => if b then "true" else "false"
  | .number x => numeral x
  | .text s => quoted format s
  | .snippet code => code
  | .list items => enclose l depth "[" "]" (Data.writeItems l format (depth + 1) items)
  | .object members =>
    enclose l depth "\x7b" "\x7d" (Data.writeMembers l format (depth + 1) members)

def Data.writeItems (l : Layout) (format : Format) (depth : Nat) : List Data → List String
  | [] => []
  | d :: rest => d.write l format depth :: Data.writeItems l format depth rest

def Data.writeMembers (l : Layout) (format : Format) (depth : Nat) :
    List (String × Data) → List String
  | [] => []
  | (name, d) :: rest =>
    (propertyName format name ++ (if l.isPretty then ": " else ":") ++ d.write l format depth) ::
      Data.writeMembers l format depth rest

end

end TwinView.Client
