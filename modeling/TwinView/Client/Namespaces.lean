import TwinView.Client.Data

/-!
Declaring the namespaces of dotted names. Each one is declared once, outermost first; the names that
a browser defines are taken to exist.
-/

namespace TwinView.Client

open Text

/-- The proper prefixes of a dotted name, shortest first; `done` is the part before it, reversed. -/
def dottedHeads (done : List Char) : List Char → List String
  | [] => []
  | c :: rest =>
    if c = '.' then String.ofList done.reverse :: dottedHeads (c :: done) rest
    else dottedHeads (c :: done) rest

def isRoot (name : String) : Bool := !name.toList.contains '.'

/-- The text that declares one namespace, unless something already stands there. -/
def declaration (l : Layout) (name : String) : String :=
  let space := if l.isPretty then " " else ""
  (if isRoot name then "var " else "") ++ name ++ space ++ "=" ++ space ++ name ++ space ++ "||" ++
    space ++ "\x7b\x7d;" ++ l.line 0

/-- What has been written, and the namespaces that it declares. -/
structure Declared where
  output : String := ""
  names : List String := []

/-- Declares those of `names` that are new, and tells whether there is one. -/
def declareEach (l : Layout) : List String → Declared → Bool × Declared
  | [], st => (false, st)
  | name :: rest, st =>
    if (isRoot name && isGlobalName name) || st.names.contains name then declareEach l rest st
    else (true, (declareEach l rest ⟨st.output ++ declaration l name, st.names ++ [name]⟩).2)

/-- Declares the namespaces of a dotted name that have not been seen before, and tells whether it has
written any. A name that is refused changes nothing. -/
def declareNamespaces (l : Layout) (st : Declared) (name : String) : Except Error Bool × Declared :=
  if isDottedName name then
    let (grew, st) := declareEach l (dottedHeads [] name.toList) st
    (.ok grew, st)
  else (.error (.invalidName name), st)

end TwinView.Client
