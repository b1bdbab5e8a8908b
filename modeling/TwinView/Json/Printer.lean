import TwinView.Json.Basic
import TwinView.Number.Writing
import TwinView.Text.Chars

/-!
JSON text in printable ASCII: every other character is written as escapes of its code units.
-/

namespace TwinView.Json

open Text

def quoteChar (c : Char) : List Char :=
  if c = '"' then ['\\', '"']
  else if c = '\\' then ['\\', '\\']
  else if isPrintable c then [c]
  else unitEscapes c

def quoted (s : String) : String := String.ofList ('"' :: s.toList.flatMap quoteChar ++ ['"'])

mutual

def print : Json → String
  | .null => "null"
  | .void => "null"
  | .bool b => if b then "true" else "false"
  | .int n => (if n < 0 then "-" else "") ++ n.natAbs.repr
  | .float x => x.pointed
  | .str s => quoted s
  | .arr items => "[" ++ ",".intercalate (printAll items) ++ "]"
  | .obj members => "\x7b" ++ ",".intercalate (printMembers members) ++ "\x7d"

def printAll : List Json → List String
  | [] => []
  | j :: rest => j.print :: printAll rest

def printMembers : List (String × Json) → List String
  | [] => []
  | (k, j) :: rest => (quoted k ++ ":" ++ j.print) :: printMembers rest

end

end TwinView.Json
