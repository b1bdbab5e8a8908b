import TwinView.Batch.Run

/-!
The command line. The places that the options speak of are taken in as a disk, the batch runs on it,
and what it has written is put back.
-/

namespace TwinView.CommandLine

def usage : String :=
  "Usage: twinview [OPTIONS] --input <INPUT>\n\n" ++
  "Options:\n" ++
  "  -i, --input <INPUT>           Template file in JSON, or a pattern of such files\n" ++
  "  -o, --outdir <OUTDIR>         Directory of the client and server trees [default: .]\n" ++
  "      --server-prefix <PREFIX>  Namespace in front of server class names\n" ++
  "      --client-prefix <PREFIX>  Namespace in front of client view names\n" ++
  "      --config <FILE>           File in JSON with settings\n" ++
  "  -v, --verbose                 Tell which files are written\n" ++
  "  -h, --help                    Print help\n" ++
  "  -V, --version                 Print version"

def version : String := "twinview 0.1.0"

def usageMessage : UsageFault → String
  | .noInput => "an input is required"
  | .noValue => "an option lacks its value"
  | .needlessValue => "an option has a value that it does not take"
  | .unknown => "unexpected argument"
  | .repeated => "an option is given more than once"
  | .helpAsked => usage
  | .versionAsked => version

def absolute (place : Location) : String := "/" ++ "/".intercalate place

def maxDepth : Nat := 64

/-- The place to which steps lead, whatever is there. -/
def destination (home : Location) (steps : List Path.Step) : Location :=
  steps.foldl (fun place s =>
    match s with
    | .root => []
    | .here => place
    | .up => place.dropLast
    | .name name => place ++ [name]) home

/-- The steps with which all paths of a pattern start, and how many more there may be. -/
def reach (pattern : Pattern) : List Path.Step × Nat :=
  let start := pattern.names.takeWhile fun glyphs => (Glyph.name? glyphs).isSome
  let rest := pattern.names.drop start.length
  let steps := (start.filterMap Glyph.name?).map fun name => Path.Step.ofPiece name.toList
  (if pattern.isAbsolute then .root :: steps else steps,
    if rest.contains [.anyDepth] then maxDepth else rest.length)

/-- Takes in a place and what lies below it, so many levels down. A file that holds no text is left
out. -/
def take : Nat → Disk → Location → IO Disk
  | levels, disk, place => do
    let path := (← IO.currentDir) / absolute place
    if ← path.isDir then
      let disk := disk.put place .directory
      match levels with
      | 0 => return disk
      | levels + 1 =>
        (← path.readDir).foldlM (fun disk entry => take levels disk (place ++ [entry.fileName])) disk
    else
      match ← (IO.FS.readFile path).toBaseIO with
      | .ok text => return disk.put place (.file text)
      | .error _ => return disk

/-- Takes in every place on the way along some steps, and so many levels below its end. -/
def follow (disk : Disk) (steps : List Path.Step) (levels : Nat) : IO Disk := do
  let disk ← (List.range steps.length).foldlM
    (fun disk n => take 0 disk (destination disk.home (steps.take n))) disk
  take levels disk (destination disk.home steps)

def loadPattern (disk : Disk) (text : String) : IO Disk :=
  match Pattern.parse text with
  | .error _ => return disk
  | .ok pattern =>
    let (steps, levels) := reach pattern
    follow disk steps levels

def load (options : Options) : IO Disk := do
  let home := (← IO.currentDir).components.filter (· ≠ "")
  let disk ← options.inputs.foldlM loadPattern (Disk.empty home)
  let disk ←
    match options.config with
    | some file => follow disk file.steps 0
    | none => pure disk
  let disk ← follow disk (options.outDir.join clientDir).steps maxDepth
  follow disk (options.outDir.join serverDir).steps maxDepth

def store (before after : Disk) : IO Unit :=
  for (place, entry) in after.entries do
    match entry with
    | .directory => pure ()
    | .file text =>
      if before.entry? place ≠ some entry then
        IO.FS.createDirAll (absolute place.dropLast)
        IO.FS.writeFile (absolute place) text

def execute (options : Options) : IO UInt32 := do
  let before ← load options
  match run options before with
  | .error refusal =>
    IO.eprintln ("Error: " ++ refusal.message)
    return 2
  | .ok (outcome, after) =>
    store before after
    if options.verbose then
      for path in outcome.written do
        IO.eprintln ("Wrote " ++ path.text)
    for diagnostic in outcome.diagnostics do
      IO.eprintln diagnostic.text
    return UInt32.ofNat outcome.exitCode

end TwinView.CommandLine

open TwinView CommandLine in
def main (args : List String) : IO UInt32 := do
  match Options.parse args with
  | .ok options => execute options
  | .error .helpAsked =>
    IO.println usage
    return 0
  | .error .versionAsked =>
    IO.println version
    return 0
  | .error fault =>
    IO.eprintln ("error: " ++ usageMessage fault)
    return 2
