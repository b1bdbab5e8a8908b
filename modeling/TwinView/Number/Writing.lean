import TwinView.Number.Shortest

/-!
How doubles are written. Both notations use the shortest digits that read back; the plain one never
has an exponent, the other one keeps a fraction and turns to an exponent for large and small numbers.
-/

namespace TwinView.Double

/-- The digits of a decimal with the point put in its place, and at least `places` digits after
it. -/
def positional (d : Decimal) (places : Nat) : String :=
  let digits := d.digits.repr.toList
  let shown :=
    if 0 ≤ d.power then digits ++ List.replicate d.power.toNat '0'
    else List.replicate ((-d.power).toNat + 1 - digits.length) '0' ++ digits
  let after := (-d.power).toNat
  let whole := shown.take (shown.length - after)
  let part := shown.drop (shown.length - after)
  let part := part ++ List.replicate (places - part.length) '0'
  String.ofList (if part.isEmpty then whole else whole ++ '.' :: part)

def scientific (d : Decimal) : String :=
  let digits := d.digits.repr.toList
  let lead := digits.take 1
  let rest := digits.drop 1
  let power : Int := d.power + rest.length
  let shown := if rest.isEmpty then lead else lead ++ '.' :: rest
  String.ofList shown ++ "e" ++ (if power < 0 then "-" else "") ++ power.natAbs.repr

def withSign (x : Double) (s : String) : String := if x.isNegative then "-" ++ s else s

/-- The shortest digits without an exponent; a whole number has no point. -/
def plain (x : Double) : String :=
  if x.isNaN then "NaN"
  else if x.isInfinite then x.withSign "inf"
  else x.withSign (positional x.shortest 0)

def leadingPower (d : Decimal) : Int := d.power + d.digits.repr.length - 1

/-- The shortest digits with at least one after the point, and an exponent from `10 ^ 16` on and
below `10 ^ -4`. -/
def pointed (x : Double) : String :=
  let d := x.shortest
  if !x.isZero && (16 ≤ leadingPower d || leadingPower d < -4) then x.withSign (scientific d)
  else x.withSign (positional d 1)

end TwinView.Double
