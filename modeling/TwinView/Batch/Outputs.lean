import TwinView.Batch.Path
import TwinView.Client.Source
import TwinView.Json.Reader
import TwinView.Server.Source
import TwinView.Template.Encoding

/-!
From the text of a template file to the files that are generated from it.
-/

namespace TwinView

namespace Settings

def forClient (s : Settings) : Settings :=
  { s with normalizeWhitespace := true, convertLineEndings := false }

def forServer (s : Settings) : Settings :=
  { s with normalizeWhitespace := false, convertLineEndings := true }

end Settings

def maxNesting : Nat := 127

/-- The views of a file: one view, or a list of them. -/
def readViews (source : String) : Except Error (List View) :=
  let views :=
    match Json.parse source with
    | some (.arr items) => items.mapM (viewOfJson? (maxNesting - 1))
    | some j => (viewOfJson? maxNesting j).map fun v => [v]
    | none => none
  match views with
  | some views => .ok views
  | none => .error .json

def clientDir : Path := ⟨"client"⟩

def serverDir : Path := ⟨"server"⟩

def clientOutput (s : Settings) (first : View) (views : List View) :
    Except Error (List (Path × String)) :=
  if views.all (·.serverOnly) then .ok []
  else do
    let text ← Client.compile s.forClient views
    return [(clientDir.join ⟨s.clientPath first.name ".js"⟩, text)]

def serverOutput (s : Settings) (v : View) : Except Error (Path × String) := do
  let text ← Server.compile s.forServer [v]
  return (serverDir.join ⟨s.serverPath v.name ".java"⟩, text)

def outputs (s : Settings) : List View → Except Error (List (Path × String))
  | [] => .ok []
  | first :: rest => do
    let views := first :: rest
    let client ← clientOutput s first views
    let server ← (views.filter (!·.clientOnly)).mapM (serverOutput s)
    return client ++ server

end TwinView
