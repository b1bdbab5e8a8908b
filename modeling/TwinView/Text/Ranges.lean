/-!
Character classes given as tables of code point ranges.
-/

namespace TwinView.Text

def inRanges (ranges : List (Nat × Nat)) (c : Char) : Bool :=
  ranges.any fun (first, last) => first ≤ c.toNat && c.toNat ≤ last

end TwinView.Text
