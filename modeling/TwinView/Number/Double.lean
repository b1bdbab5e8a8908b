/-!
Double precision numbers as 64-bit words: a sign, a binary exponent of eleven bits and a fraction of
fifty-two. A finite word stands for `significand * 2 ^ scale` with the sign in front. All arithmetic
on them is exact arithmetic on `Nat` and `Int`.
-/

namespace TwinView

structure Double where
  bits : UInt64
deriving DecidableEq, Repr

namespace Double

def twoTo (n : Nat) : Nat := Nat.pow 2 n

def tenTo (n : Nat) : Nat := Nat.pow 10 n

def fractionSize : Nat := 0x10000000000000

def signBit : Nat := 0x8000000000000000

def fraction (x : Double) : Nat := x.bits.toNat % fractionSize

def exponent (x : Double) : Nat := x.bits.toNat / fractionSize % 2048

def isNegative (x : Double) : Bool := signBit ≤ x.bits.toNat

def isFinite (x : Double) : Bool := x.exponent != 2047

def isNaN (x : Double) : Bool := x.exponent == 2047 && x.fraction != 0

def isInfinite (x : Double) : Bool := x.exponent == 2047 && x.fraction == 0

def significand (x : Double) : Nat :=
  if x.exponent = 0 then x.fraction else fractionSize + x.fraction

def scale (x : Double) : Int := max 1 (x.exponent : Int) - 1075

def isZero (x : Double) : Bool := x.exponent == 0 && x.fraction == 0

def ofMagnitude (negative : Bool) (magnitude : Nat) : Double :=
  ⟨UInt64.ofNat (if negative then signBit + magnitude else magnitude)⟩

def infinity (negative : Bool) : Double := ofMagnitude negative (2047 * fractionSize)

def zero (negative : Bool) : Double := ofMagnitude negative 0

def nan : Double := ⟨0x7FF8000000000000⟩

/-- The number as an integer, if it is one; both zeros are. -/
def toInt? (x : Double) : Option Int :=
  if !x.isFinite then none
  else
    let size : Option Nat :=
      if 0 ≤ x.scale then some (x.significand * twoTo x.scale.toNat)
      else
        let unit := twoTo (-x.scale).toNat
        if x.significand % unit = 0 then some (x.significand / unit) else none
    size.map fun n => if x.isNegative then -(n : Int) else n

/-- Equality of numbers: the two zeros are equal, and so are any two NaNs. -/
def same (x y : Double) : Bool :=
  if x.isNaN || y.isNaN then x.isNaN && y.isNaN
  else x.bits == y.bits || (x.isZero && y.isZero)

/-- The quotient of two naturals rounded to the nearest integer, a half going to the even one. -/
def divNearestEven (num den : Nat) : Nat :=
  let q := num / den
  let r := num % den
  if 2 * r < den || (2 * r = den && q % 2 = 0) then q else q + 1

/-- The exponent `e` for which `num / den` lies between `2 ^ e` and `2 ^ (e + 1)`. -/
def floorLog2 (num den : Nat) : Int :=
  let e : Int := (num.log2 : Int) - den.log2
  let below := if 0 ≤ e then num < den * twoTo e.toNat else num * twoTo (-e).toNat < den
  if below then e - 1 else e

/-- The magnitude nearest to `num / den`, both positive. A number with 53 significant bits, or fewer
below the normal range, is rounded to even; what is too large becomes infinite. -/
def nearestMagnitude (num den : Nat) : Nat :=
  let unit : Int := max (floorLog2 num den - 52) (-1074)
  let q :=
    if 0 ≤ unit then divNearestEven num (den * twoTo unit.toNat)
    else divNearestEven (num * twoTo (-unit).toNat) den
  let word := if q < fractionSize then q else (unit + 1075).toNat * fractionSize + (q - fractionSize)
  min word (2047 * fractionSize)

/-- The number nearest to the fraction `num / den` with a sign in front; `den` is positive. -/
def ofFraction (negative : Bool) (num den : Nat) : Double :=
  if num = 0 then zero negative else ofMagnitude negative (nearestMagnitude num den)

def ofInt (n : Int) : Double := ofFraction (n < 0) n.natAbs 1

/-- The number nearest to `digits * 10 ^ power` with a sign in front. Powers that no number of this
many digits reaches are cut off before the power is computed. -/
def ofDecimal (negative : Bool) (digits : Nat) (power : Int) : Double :=
  let size : Int := digits.repr.length + power
  if digits = 0 then zero negative
  else if 400 < size then infinity negative
  else if size < -400 then zero negative
  else if 0 ≤ power then ofFraction negative (digits * tenTo power.toNat) 1
  else ofFraction negative digits (tenTo (-power).toNat)

end Double

end TwinView
