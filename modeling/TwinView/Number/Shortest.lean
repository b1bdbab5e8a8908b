import TwinView.Number.Double

/-!
The fewest decimal digits that read back as a given double. The numbers that round to it form an
interval, whose ends belong to it when its significand is even; on the decimal grid of 1, 2, … 17
digits the value's two neighbours are tried, and the first grid with a hit is taken.
-/

namespace TwinView

structure Decimal where
  digits : Nat
  power : Int
deriving DecidableEq, Repr

namespace Decimal

/-- Moves trailing zeros of the digits into the power; `fuel` bounds their number. -/
def stripZeros : Nat → Decimal → Decimal
  | 0, d => d
  | fuel + 1, d =>
    if d.digits ≠ 0 ∧ d.digits % 10 = 0 then stripZeros fuel ⟨d.digits / 10, d.power + 1⟩ else d

end Decimal

namespace Double

/-- A positive number times a common denominator, with the two ends of the interval of numbers that
round to it. -/
structure Neighbourhood where
  low : Nat
  value : Nat
  high : Nat
  unit : Nat
  closed : Bool

/-- The neighbourhood of a finite number that is not zero, over a denominator `unit`. Below a power
of two the grid is twice as fine. -/
def neighbourhood (x : Double) : Neighbourhood :=
  let m := x.significand
  let lower := if m = fractionSize ∧ 1 < x.exponent then 1 else 2
  let up := twoTo x.scale.toNat
  { low := (4 * m - lower) * up
    value := 4 * m * up
    high := (4 * m + 2) * up
    unit := 4 * twoTo (-x.scale).toNat
    closed := m % 2 = 0 }

def Neighbourhood.holds (n : Neighbourhood) (d : Decimal) : Bool :=
  let there := d.digits * n.unit * tenTo d.power.toNat
  let tens := tenTo (-d.power).toNat
  if n.closed then n.low * tens ≤ there && there ≤ n.high * tens
  else n.low * tens < there && there < n.high * tens

def floorLog10 (num den : Nat) : Int :=
  if den ≤ num then (num / den).repr.length - 1
  else -(((den + num - 1) / num - 1).repr.length : Int)

/-- The better of the value's two neighbours on the grid `10 ^ power`, if one of them reads back;
of two that do, the nearer, and of two equally near, the upper. -/
def Neighbourhood.onGrid (n : Neighbourhood) (power : Int) : Option Decimal :=
  let num := n.value * tenTo (-power).toNat
  let den := n.unit * tenTo power.toNat
  let q := num / den
  let lower : Decimal := ⟨q, power⟩
  let upper : Decimal := ⟨q + 1, power⟩
  match n.holds lower, n.holds upper with
  | true, true => some (if 2 * (num % den) < den then lower else upper)
  | true, false => some lower
  | false, true => some upper
  | false, false => none

/-- Tries the grids of `count`, `count + 1`, … digits; seventeen digits always suffice. -/
def Neighbourhood.search (n : Neighbourhood) (leading : Int) : Nat → Nat → Decimal
  | 0, count => ⟨n.value * tenTo (count - leading - 1).toNat / n.unit, leading + 1 - count⟩
  | fuel + 1, count =>
    match n.onGrid (leading + 1 - count) with
    | some d => d
    | none => n.search leading fuel (count + 1)

/-- The shortest decimal that reads back as a finite number's size, the nearest one of these. -/
def shortest (x : Double) : Decimal :=
  if x.isZero then ⟨0, 0⟩
  else
    let n := x.neighbourhood
    (n.search (floorLog10 n.value n.unit) 17 1).stripZeros 400

end Double

end TwinView
