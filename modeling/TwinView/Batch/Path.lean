import TwinView.Text.Chars

/-!
Paths, written with a slash between their steps.
-/

namespace TwinView

open Text

structure Path where
  text : String
deriving DecidableEq, Repr

namespace Path

inductive Step
  | root
  | here
  | up
  | name (s : String)
deriving DecidableEq, Repr

namespace Step

def ofPiece (piece : List Char) : Step :=
  if piece = [] ∨ piece = ['.'] then .here
  else if piece = ['.', '.'] then .up
  else .name (String.ofList piece)

def rank : Step → Nat
  | .root => 0
  | .here => 1
  | .up => 2
  | .name _ => 3

/-- Steps in order: the root, staying, going up, and names by their characters. -/
def before : Step → Step → Bool
  | .name s, .name t => s < t
  | a, b => a.rank < b.rank

end Step

def isAbsolute (p : Path) : Bool := p.text.toList.head? == some '/'

def pieces (p : Path) : List (List Char) := splitAt '/' p.text.toList

/-- The path that pieces spell. A lone empty piece stands for the root. -/
def ofPieces (pieces : List (List Char)) : Path :=
  if pieces = [[]] then ⟨"/"⟩ else ⟨String.ofList (['/'].intercalate pieces)⟩

/-- Every step of a walk along the path. The empty path has none. -/
def steps (p : Path) : List Step :=
  if p.text = "" then []
  else
    let all := p.pieces.map Step.ofPiece
    if p.isAbsolute then .root :: all.tail else all

/-- The steps that tell two paths apart. One that stays counts only in front. -/
def parts (p : Path) : List Step :=
  match p.steps with
  | [] => []
  | first :: rest => first :: rest.filter (· ≠ .here)

/-- The beginnings of a list of pieces at which a walk stops, the shortest first: that of one piece, and
those that end in a piece which leads elsewhere. -/
def stops (before : List (List Char)) : List (List Char) → List (List (List Char))
  | [] => []
  | piece :: rest =>
    let start := before ++ [piece]
    if before = [] ∨ Step.ofPiece piece ≠ .here then start :: stops start rest
    else stops start rest

/-- The directories on the way to the last step, the nearest first, each spelled as in the path. -/
def above (p : Path) : List Path := (stops [] p.pieces).dropLast.reverse.map ofPieces

/-- The path `q` seen from `p`; an absolute one stays as it is. -/
def join (p q : Path) : Path :=
  if q.isAbsolute || p.text = "" then q
  else if p.text.toList.getLast? = some '/' then ⟨p.text ++ q.text⟩
  else ⟨p.text ++ "/" ++ q.text⟩

def staysHere (p : Path) : Bool := p.parts = [.here]

def partsLe : List Step → List Step → Bool
  | [], _ => true
  | _ :: _, [] => false
  | a :: as, b :: bs => if a = b then partsLe as bs else a.before b

def le (p q : Path) : Bool := partsLe p.parts q.parts

def firsts : List Path → List Path
  | [] => []
  | p :: rest => p :: (firsts rest).filter (·.parts ≠ p.parts)

def arrange (paths : List Path) : List Path := firsts (paths.mergeSort le)

end Path

end TwinView
