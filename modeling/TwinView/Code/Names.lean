/-!
Names that generated code declares. Each stem has a counter, and a local name of a script is renamed
once and for all.
-/

namespace TwinView.Code

structure Names where
  /-- How often each stem has been used, the newest entry first. -/
  counters : List (String × Nat) := []
  /-- The names given to the locals of scripts, the newest first. -/
  locals : List (String × String) := []
deriving Repr

namespace Names

def count (n : Names) (stem : String) : Nat := (n.counters.lookup stem).getD 0

/-- A new name: the stem and the next number of its counter. -/
def fresh (n : Names) (stem : String) : String × Names :=
  let k := n.count stem + 1
  (stem ++ k.repr, { n with counters := (stem, k) :: n.counters })

def isLocal (n : Names) (name : String) : Bool := (n.locals.lookup name).isSome

/-- The name that stands for a local of a script, a new one at its first use. -/
def rename (n : Names) (name : String) : String × Names :=
  match n.locals.lookup name with
  | some given => (given, n)
  | none =>
    let (given, n) := n.fresh (name ++ "_")
    (given, { n with locals := (name, given) :: n.locals })

end Names

end TwinView.Code
