import TwinView.Json.Decode
import TwinView.Text.Blank
import TwinView.Text.Chars
import TwinView.Text.Lowercase

/-!
Settings of the emitted text, and the names and paths that they give to views.
-/

namespace TwinView

open Text

structure Settings where
  indent : String := "\t"
  newline : String := "\n"
  /-- Write tabs and line feeds of literal text as `indent` and `newline`. -/
  convertLineEndings : Bool := false
  normalizeWhitespace : Bool := false
  /-- Close void elements and give boolean attributes a value. -/
  xhtmlStyle : Bool := false
  encodeNonAscii : Bool := true
  /-- Write a type attribute on generated script elements. -/
  scriptTypeAttr : Bool := false
  lowercaseClientPaths : Bool := true
  clientRoot : Option String := none
  serverRoot : Option String := none
deriving DecidableEq, Repr

namespace Settings

/-- A root counts only if it has more than blanks. -/
def effectiveRoot (root : Option String) : Option String :=
  (root.map trim).filter (· ≠ "")

def qualify (root : Option String) (view : String) : String :=
  match effectiveRoot root with
  | some r => r ++ "." ++ trim view
  | none => trim view

def serverName (s : Settings) (view : String) : String := qualify s.serverRoot view

def clientName (s : Settings) (view : String) : String := qualify s.clientRoot view

def pathOf (name extension : String) : String := replaceChar '.' "/" name ++ extension

def serverPath (s : Settings) (view extension : String) : String :=
  pathOf (s.serverName view) extension

def clientPath (s : Settings) (view extension : String) : String :=
  let name := s.clientName view
  pathOf (if s.lowercaseClientPaths then lowercase name else name) extension

def fieldNames : List String := [
  "indent", "newline", "convertLineEndings", "normalizeWhitespace", "xhtmlStyle",
  "encodeNonAscii", "scriptTypeAttr", "lowercaseClientPaths", "clientPrefix", "serverPrefix"]

def toJson (s : Settings) : Json := .obj [
  ("indent", .str s.indent), ("newline", .str s.newline),
  ("convertLineEndings", .bool s.convertLineEndings),
  ("normalizeWhitespace", .bool s.normalizeWhitespace),
  ("xhtmlStyle", .bool s.xhtmlStyle), ("encodeNonAscii", .bool s.encodeNonAscii),
  ("scriptTypeAttr", .bool s.scriptTypeAttr),
  ("lowercaseClientPaths", .bool s.lowercaseClientPaths),
  ("clientPrefix", Json.ofString? s.clientRoot), ("serverPrefix", Json.ofString? s.serverRoot)]

/-- Reads settings; what is missing takes its default. -/
def ofJson? (j : Json) : Option Settings := do
  let defaults : Settings := {}
  match ← j.fields fieldNames with
  | [indent, newline, convert, normalize, xhtml, encode, typed, lower, client, server] =>
    return {
      indent := ← Json.withDefault defaults.indent Json.asString indent
      newline := ← Json.withDefault defaults.newline Json.asString newline
      convertLineEndings := ← Json.withDefault defaults.convertLineEndings Json.asBool convert
      normalizeWhitespace := ← Json.withDefault defaults.normalizeWhitespace Json.asBool normalize
      xhtmlStyle := ← Json.withDefault defaults.xhtmlStyle Json.asBool xhtml
      encodeNonAscii := ← Json.withDefault defaults.encodeNonAscii Json.asBool encode
      scriptTypeAttr := ← Json.withDefault defaults.scriptTypeAttr Json.asBool typed
      lowercaseClientPaths := ← Json.withDefault defaults.lowercaseClientPaths Json.asBool lower
      clientRoot := ← Json.optional Json.asString client
      serverRoot := ← Json.optional Json.asString server }
  | _ => none

end Settings

end TwinView
