import TwinView.Batch.Disk
import TwinView.Batch.Pattern

/-!
The paths on a disk that a pattern stands for.
-/

namespace TwinView.Disk

def enter (directory : Path) (name : String) : Path :=
  if directory.staysHere then ⟨name⟩ else directory.join ⟨name⟩

/-- A path that a search has come to, and whether a directory is known to be there. -/
structure Found where
  path : Path
  isDirectory : Bool
deriving DecidableEq, Repr

abbrev Unreadable := Path × DiskFault

def come (d : Disk) (path : Path) : Found := { path, isDirectory := d.isDirectory path }

/-- What a directory holds, with the names that lead there. What is no directory holds nothing. -/
def contents (d : Disk) (base : Found) : Except Unreadable (List (Location × Entry)) :=
  if base.isDirectory then
    match d.find base.path with
    | .ok (place, _) => .ok (d.below place)
    | .error fault => .error (base.path, fault)
  else .ok []

def children (d : Disk) (base : Found) : Except Unreadable (List (Found × String)) := do
  return (← d.contents base).filterMap fun (names, e) =>
    match names with
    | [name] => some ({ path := enter base.path name, isDirectory := e = .directory }, name)
    | _ => none

/-- One entry below a directory, with the fault that it cannot be read in turn. It is not come to if the
directory around it cannot be read. -/
def descendant (d : Disk) (base : Path) (names : Location) (e : Entry) :
    List (Except Unreadable (Found × String)) :=
  match names.getLast? with
  | none => []
  | some last =>
    let found : Found := { path := names.foldl enter base, isDirectory := e = .directory }
    if d.existsAt (names.dropLast.foldl enter base) then
      match d.contents found with
      | .ok _ => [.ok (found, last)]
      | .error fault => [.ok (found, last), .error fault]
    else []

def descendants (d : Disk) (base : Found) : List (Except Unreadable (Found × String)) :=
  match d.contents base with
  | .error fault => [.error fault]
  | .ok all => all.flatMap fun (names, e) => d.descendant base.path names e

/-- The two names that every directory has for itself and the one above. They match only a pattern
that starts with a dot. -/
def dotNames : List String := [".", ".."]

def dotPaths (d : Disk) (base : Found) (glyphs : List Glyph) : List Found :=
  if base.isDirectory && glyphs.head? = some (.exactly '.') then
    (dotNames.filter fun s => Glyph.spells glyphs s.toList).map fun s => d.come (base.path.join ⟨s⟩)
  else []

/-- What the names of a pattern stand for from `base` on, with the directories that cannot be read. -/
def expand (d : Disk) (base : Found) : List (List Glyph) → List (Except Unreadable Found)
  | [] => [.ok base]
  | [.anyDepth] :: [.anyDepth] :: rest => d.expand base ([.anyDepth] :: rest)
  | [[.anyDepth]] =>
    (d.descendants base).filterMap fun
      | .ok (found, _) => if found.isDirectory then some (.ok found) else none
      | .error fault => some (.error fault)
  | [.anyDepth] :: glyphs :: rest =>
    (d.descendants base).flatMap fun
      | .ok (found, name) => if Glyph.spells glyphs name.toList then d.expand found rest else []
      | .error fault => [.error fault]
  | glyphs :: rest =>
    match Glyph.name? glyphs with
    | some name =>
      let next := enter base.path name
      let present := if dotNames.contains name then base.isDirectory else d.existsAt next
      if present then d.expand (d.come next) rest else []
    | none =>
      match d.children base with
      | .error fault => [.error fault]
      | .ok all =>
        let named := all.filter fun (_, name) => Glyph.spells glyphs name.toList
        (named.map (·.1) ++ d.dotPaths base glyphs).flatMap fun found => d.expand found rest

def firstFault (results : List (Except Unreadable Found)) : Option Unreadable :=
  let faults := results.filterMap fun
    | .ok _ => none
    | .error fault => some fault
  (faults.mergeSort fun a b => a.1.le b.1).head?

/-- The paths that a pattern stands for. No directory on the way may be unreadable. -/
def search (d : Disk) (pattern : Pattern) : Except Unreadable (List Path) :=
  let base : Path := if pattern.isAbsolute then ⟨"/"⟩ else ⟨"."⟩
  let results := d.expand (d.come base) pattern.names
  match firstFault results with
  | some fault => .error fault
  | none =>
    .ok (results.filterMap fun
      | .ok found => if !pattern.wantsDirectory || found.isDirectory then some found.path else none
      | .error _ => none)

end TwinView.Disk
