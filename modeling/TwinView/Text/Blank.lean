import TwinView.Text.Ranges

/-!
The Unicode property White_Space, and cutting it off the ends of a text.
-/

namespace TwinView.Text

def blankRanges : List (Nat × Nat) := [
  (0x9, 0xD), (0x20, 0x20), (0x85, 0x85), (0xA0, 0xA0), (0x1680, 0x1680), (0x2000, 0x200A),
  (0x2028, 0x2029), (0x202F, 0x202F), (0x205F, 0x205F), (0x3000, 0x3000)]

def isBlank (c : Char) : Bool := inRanges blankRanges c

def dropEndWhile (p : Char → Bool) (cs : List Char) : List Char :=
  (cs.reverse.dropWhile p).reverse

def trimStart (s : String) : String := String.ofList (s.toList.dropWhile isBlank)

def trim (s : String) : String := String.ofList (dropEndWhile isBlank (s.toList.dropWhile isBlank))

end TwinView.Text
