/-!
Places in a source text. An offset counts bytes of UTF-8, a column counts characters, and only a
line feed starts a new line.
-/

namespace TwinView

/-- A place in a text; lines count from one, offsets and columns from zero. -/
structure Position where
  index : Nat
  line : Nat
  column : Nat
deriving DecidableEq, Repr

namespace Position

def walk (offset : Nat) : List Char → Nat → Nat → Nat → Position
  | [], _, line, column => ⟨offset, line, column⟩
  | c :: rest, here, line, column =>
    if offset ≤ here then ⟨offset, line, column⟩
    else if c = '\n' then walk offset rest (here + c.utf8Size) (line + 1) 0
    else walk offset rest (here + c.utf8Size) line (column + 1)

def locate (source : String) (offset : Nat) : Position := walk offset source.toList 0 1 0

/-- The place written as `line:column`. -/
def text (p : Position) : String := p.line.repr ++ ":" ++ p.column.repr

end Position

end TwinView
