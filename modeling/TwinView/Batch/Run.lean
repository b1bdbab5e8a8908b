import TwinView.Batch.Options
import TwinView.Batch.Outputs
import TwinView.Batch.Search

/-!
A batch: every input file is compiled on its own, and one that fails does not stop the rest.
-/

namespace TwinView

inductive Diagnostic
  | compile (file : Path) (error : Error)
  | disk (file : Path) (fault : DiskFault)
deriving DecidableEq, Repr

namespace Diagnostic

def file : Diagnostic → Path
  | .compile file _ => file
  | .disk file _ => file

def text : Diagnostic → String
  | .compile file error =>
    match error.position with
    | some p => file.text ++ ":" ++ p.text ++ ": " ++ error.message
    | none => file.text ++ ": " ++ error.message
  | .disk file fault => file.text ++ ": " ++ fault.message

end Diagnostic

inductive Refusal
  | unreadableSettings (file : Path) (fault : DiskFault)
  | invalidSettings (file : Path)
  | invalidPattern (pattern : String) (fault : PatternFault)
  /-- The pattern leads through a directory that cannot be read. -/
  | unreadableMatch (pattern : String) (directory : Path) (fault : DiskFault)
  | noMatch (pattern : String)
deriving DecidableEq, Repr

def Refusal.message : Refusal → String
  | .unreadableSettings file fault =>
    "Failed to read settings from " ++ file.text ++ ": " ++ fault.message
  | .invalidSettings file => "Invalid settings in " ++ file.text
  | .invalidPattern pattern fault =>
    "Invalid input pattern: " ++ pattern ++ ": " ++ fault.message
  | .unreadableMatch pattern directory fault =>
    "Cannot read match of " ++ pattern ++ ": attempting to read `" ++ directory.text ++
      "` resulted in an error: " ++ fault.message
  | .noMatch pattern => "No input files match " ++ pattern

structure Outcome where
  written : List Path := []
  diagnostics : List Diagnostic := []
deriving DecidableEq, Repr

def Outcome.exitCode (o : Outcome) : Nat := if o.diagnostics.isEmpty then 0 else 1

namespace Options

def baseSettings (o : Options) (d : Disk) : Except Refusal Settings :=
  match o.config with
  | none => .ok {}
  | some file =>
    match d.read file with
    | .error fault => .error (.unreadableSettings file fault)
    | .ok text =>
      match Json.parse text >>= Settings.ofJson? with
      | none => .error (.invalidSettings file)
      | some s => .ok s

/-- The settings of a batch. A root given as an argument wins. -/
def settings (o : Options) (d : Disk) : Except Refusal Settings := do
  let s ← o.baseSettings d
  return {
    s with
    serverRoot := o.serverRoot.or s.serverRoot
    clientRoot := o.clientRoot.or s.clientRoot }

/-- The files of one pattern, of which there must be one at least. -/
def filesOf (d : Disk) (pattern : String) : Except Refusal (List Path) :=
  match Pattern.parse pattern with
  | .error fault => .error (.invalidPattern pattern fault)
  | .ok p =>
    match d.search p with
    | .error (directory, fault) => .error (.unreadableMatch pattern directory fault)
    | .ok found =>
      match found.filter d.isFile with
      | [] => .error (.noMatch pattern)
      | files => .ok files

def inputFiles (o : Options) (d : Disk) : Except Refusal (List Path) := do
  return Path.arrange (← o.inputs.mapM (filesOf d)).flatten

end Options

/-- Writes files one after the other, up to the first that cannot be written. -/
def writeAll (outDir : Path) : Disk → List (Path × String) → Option Diagnostic × Disk
  | d, [] => (none, d)
  | d, (relative, text) :: rest =>
    let target := outDir.join relative
    match d.write target text with
    | .error fault => (some (.disk target fault), d)
    | .ok d => writeAll outDir d rest

def compileFile (s : Settings) (d : Disk) (input : Path) :
    Except Diagnostic (List (Path × String)) := do
  let source ← (d.read input).mapError (.disk input)
  (readViews source >>= outputs s).mapError (.compile input)

/-- Compiles an input file. Nothing is written unless all its views compile. -/
def runFile (s : Settings) (outDir : Path) (done : Outcome × Disk) (input : Path) :
    Outcome × Disk :=
  let (o, d) := done
  match compileFile s d input with
  | .error diagnostic => ({ o with diagnostics := o.diagnostics ++ [diagnostic] }, d)
  | .ok files =>
    match writeAll outDir d files with
    | (some diagnostic, d) => ({ o with diagnostics := o.diagnostics ++ [diagnostic] }, d)
    | (none, d) => ({ o with written := o.written ++ files.map (outDir.join ·.1) }, d)

def run (o : Options) (d : Disk) : Except Refusal (Outcome × Disk) := do
  let s ← o.settings d
  let files ← o.inputFiles d
  return files.foldl (runFile s o.outDir) ({}, d)

end TwinView
