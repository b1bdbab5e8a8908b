import TwinView.Batch.Path

/-!
The files and directories that a batch reads and writes.
-/

namespace TwinView

/-- Where a file or directory lies: the names from the root down. -/
abbrev Location := List String

inductive Entry
  | directory
  | file (text : String)
deriving DecidableEq, Repr

inductive DiskFault
  | missing
  | exists
  | notDirectory
  | isDirectory
  | nameTooLong
  | nulInName
deriving DecidableEq, Repr

def DiskFault.message : DiskFault → String
  | .missing => "No such file or directory (os error 2)"
  | .exists => "File exists (os error 17)"
  | .notDirectory => "Not a directory (os error 20)"
  | .isDirectory => "Is a directory (os error 21)"
  | .nameTooLong => "File name too long (os error 36)"
  | .nulInName => "file name contained an unexpected NUL byte"

structure Disk where
  /-- The directory from which relative paths start. -/
  home : Location
  entries : List (Location × Entry)
deriving Repr

namespace Disk

/-- What lies at a place. The root is always there. -/
def entry? (d : Disk) (place : Location) : Option Entry :=
  if place = [] then some .directory else d.entries.lookup place

def put (d : Disk) (place : Location) (e : Entry) : Disk :=
  { d with entries := (d.entries.filter (·.1 ≠ place)) ++ [(place, e)] }

def maxName : Nat := 255

def maxPath : Nat := 4095

def step (place : Location) : Path.Step → Except DiskFault Location
  | .root => .ok []
  | .here => .ok place
  | .up => .ok place.dropLast
  | .name s => if maxName < s.utf8ByteSize then .error .nameTooLong else .ok (place ++ [s])

/-- The end of a walk. Each step starts at a directory; the last may lead to nothing. -/
def walk (d : Disk) (place : Location) : List Path.Step → Except DiskFault Location
  | [] => .ok place
  | s :: rest =>
    match d.entry? place with
    | none => .error .missing
    | some (.file _) => .error .notDirectory
    | some .directory => do d.walk (← step place s) rest

/-- The place to which a path leads. Its text is looked at before any step is made. -/
def locate (d : Disk) (p : Path) : Except DiskFault Location :=
  if p.text = "" then .error .missing
  else if p.text.toList.contains '\x00' then .error .nulInName
  else if maxPath < p.text.utf8ByteSize then .error .nameTooLong
  else d.walk d.home p.steps

def find (d : Disk) (p : Path) : Except DiskFault (Location × Entry) := do
  let place ← d.locate p
  match d.entry? place with
  | some e => .ok (place, e)
  | none => .error .missing

def existsAt (d : Disk) (p : Path) : Bool := (d.find p).isOk

def isDirectory (d : Disk) (p : Path) : Bool :=
  match d.find p with
  | .ok (_, .directory) => true
  | _ => false

def isFile (d : Disk) (p : Path) : Bool :=
  match d.find p with
  | .ok (_, .file _) => true
  | _ => false

def read (d : Disk) (p : Path) : Except DiskFault String :=
  match d.find p with
  | .ok (_, .file text) => .ok text
  | .ok (_, .directory) => .error .isDirectory
  | .error fault => .error fault

def makeDirectory (d : Disk) (p : Path) : Except DiskFault Disk := do
  let place ← d.locate p
  match d.entry? place with
  | some _ => .error .exists
  | none => .ok (d.put place .directory)

/-- A directory that could not be made does no harm if it is there. -/
def orPresent (d : Disk) (p : Path) : Except DiskFault Disk → Except DiskFault Disk
  | .ok made => .ok made
  | .error fault => if d.isDirectory p then .ok d else .error fault

/-- Makes the first of some directories, each of which lies in the next, and those that it needs. -/
def makeDirectories (d : Disk) : List Path → Except DiskFault Disk
  | [] => .ok d
  | p :: above =>
    match d.makeDirectory p with
    | .error .missing => do
      let d ← d.makeDirectories above
      d.orPresent p (d.makeDirectory p)
    | made => d.orPresent p made

def writeFile (d : Disk) (p : Path) (text : String) : Except DiskFault Disk := do
  let place ← d.locate p
  match d.entry? place with
  | some .directory => .error .isDirectory
  | _ => .ok (d.put place (.file text))

def write (d : Disk) (p : Path) (text : String) : Except DiskFault Disk := do
  (← d.makeDirectories p.above).writeFile p text

/-- The entries below a place, each with the names that lead to it. -/
def below (d : Disk) (place : Location) : List (Location × Entry) :=
  d.entries.filterMap fun (l, e) =>
    if place.isPrefixOf l && place.length < l.length then some (l.drop place.length, e) else none

def files (d : Disk) : List (Path × String) :=
  (d.below d.home).filterMap fun (names, e) =>
    match e with
    | .file text => some (⟨"/".intercalate names⟩, text)
    | .directory => none

def empty (home : Location) : Disk :=
  { home, entries := (List.range home.length).map fun n => (home.take (n + 1), .directory) }

def ofFiles (home : Location) (files : List (Path × String)) : Except DiskFault Disk :=
  files.foldlM (fun d (p, text) => d.write p text) (empty home)

end Disk

end TwinView
