import TwinView.Code.Primitive
import TwinView.Settings

/-!
Java literals. Whatever is not printable ASCII is written as escapes of its UTF-16 code units.
-/

namespace TwinView.Java

open Text Code

/-- Tabs, line ends and returns of literal text as the settings want them. -/
def convertText (s : Settings) (value : String) : String :=
  if s.convertLineEndings then
    let value := if s.indent ≠ "\t" then replaceChar '\t' s.indent value else value
    let value := replaceChar '\r' "\n" (replaceAll "\r\n" "\n" value)
    if s.newline ≠ "\n" then replaceChar '\n' s.newline value else value
  else value

def escapes : List (Char × String) := [
  ('\\', "\\\\"), ('\t', "\\t"), ('\n', "\\n"), ('\r', "\\r"), ('\x0C', "\\f"), ('\x08', "\\b")]

/-- A character inside quotes; the quote itself is escaped. -/
def escapeChar (quote c : Char) : List Char :=
  if c = quote then ['\\', c]
  else
    match escapes.lookup c with
    | some escape => escape.toList
    | none => if isPrintable c then [c] else unitEscapes c

def stringLiteral (s : Settings) (value : String) : String :=
  String.ofList ('"' :: (convertText s value).toList.flatMap (escapeChar '"') ++ ['"'])

/-- A character literal. A tab or line feed that is converted, and a character outside the basic
plane, has to be a string. -/
def charLiteral (s : Settings) (c : Char) : String :=
  if c = '\t' && s.convertLineEndings && s.indent ≠ "\t" then stringLiteral s s.indent
  else if c = '\n' && s.convertLineEndings && s.newline ≠ "\n" then stringLiteral s s.newline
  else if 0x10000 ≤ c.toNat then stringLiteral s c.toString
  else String.ofList ('\'' :: escapeChar '\'' c ++ ['\''])

def primitive (s : Settings) : Primitive → String
  | .null => "null"
  | .undefined => "JSUtility.UNDEFINED"
  | .bool b => if b then "true" else "false"
  | .char c => charLiteral s c
  | .int n => Primitive.decimal n
  | .long n => Primitive.decimal n ++ "L"
  | .double x =>
    if x.isNaN then "Double.NaN"
    else if x.isInfinite then
      if x.isNegative then "Double.NEGATIVE_INFINITY" else "Double.POSITIVE_INFINITY"
    else x.pointed
  | .text value => stringLiteral s value

end TwinView.Java
