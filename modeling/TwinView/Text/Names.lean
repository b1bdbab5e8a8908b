import TwinView.Text.Chars

/-!
Names of client code: the reserved words, the names that a browser defines, and which texts may
name a view.
-/

namespace TwinView.Text

def objectMembers : List String := [
  "__proto__", "constructor", "hasOwnProperty", "isPrototypeOf", "propertyIsEnumerable",
  "prototype", "toLocaleString", "toString", "valueOf", "__defineGetter__", "__defineSetter__"]

def reservedWords : List String := [
  "break", "case", "catch", "class", "const", "continue", "debugger", "default", "delete",
  "do", "else", "enum", "export", "extends", "false", "finally", "for", "function", "if",
  "implements", "import", "in", "instanceof", "interface", "let", "new", "null", "package",
  "private", "protected", "public", "return", "static", "super", "switch", "this", "throw",
  "true", "try", "typeof", "var", "void", "while", "with", "yield"]

def standardGlobals : List String := [
  "Array", "Boolean", "Date", "decodeURI", "decodeURIComponent", "encodeURI",
  "encodeURIComponent", "Error", "escape", "eval", "EvalError", "Function", "Infinity",
  "isFinite", "isNaN", "JSON", "Math", "NaN", "Number", "Object", "parseFloat", "parseInt",
  "RangeError", "ReferenceError", "RegExp", "String", "SyntaxError", "TypeError",
  "undefined", "unescape", "URIError"]

def browserGlobals : List String := [
  "alert", "clearInterval", "clearTimeout", "confirm", "console", "document", "event",
  "frames", "history", "localStorage", "location", "navigator", "opener", "parent",
  "prompt", "screen", "self", "sessionStorage", "setInterval", "setTimeout", "top",
  "window", "XMLHttpRequest"]

def isGlobalName (s : String) : Bool := standardGlobals.contains s || browserGlobals.contains s

def isObjectMember (s : String) : Bool := objectMembers.contains s

/-- A name of one part: a name start, then name characters, and no reserved word. -/
def isSimpleName (s : String) : Bool :=
  !(reservedWords.contains s || objectMembers.contains s) &&
    match s.toList with
    | [] => false
    | c :: rest => isNameStart c && rest.all isNamePart

def isDottedName (s : String) : Bool :=
  (splitAt '.' s.toList).all fun piece => isSimpleName (String.ofList piece)

end TwinView.Text
