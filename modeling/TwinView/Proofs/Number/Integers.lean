import Mathlib.Algebra.Order.Field.Power
import Mathlib.Data.Rat.Cast.Order
import Mathlib.Tactic.FieldSimp
import Mathlib.Tactic.Linarith
import Mathlib.Tactic.Positivity
import TwinView.Code.Primitive

/-!
Doubles that are integers. The value of a double is a fraction; where it is an integer, the nearest double to it
is that double again, so that a constant made of an integer is the number it is made of.
-/

namespace TwinView

namespace Double

variable {x : Double} {n : Int} {k m t : Nat}

def value (x : Double) : ℚ := (if x.isNegative then -1 else 1) * (x.significand * 2 ^ x.scale)

theorem fraction_lt (x : Double) : x.fraction < fractionSize := Nat.mod_lt _ (by decide)

theorem exponent_lt (h : x.isFinite) : x.exponent < 2047 := by
  have hlt : x.exponent < 2048 := Nat.mod_lt _ (by decide)
  have hne : x.exponent ≠ 2047 := by simpa [isFinite] using h
  omega

theorem toNat_bits (x : Double) : x.bits.toNat =
    (if x.isNegative then signBit else 0) + (x.exponent * fractionSize + x.fraction) := by
  have hbits := x.bits.toNat_lt
  unfold isNegative exponent fraction signBit fractionSize
  split
  · next h =>
      have h := of_decide_eq_true h
      omega
  · next h =>
      have h := of_decide_eq_false (Bool.not_eq_true _ ▸ h)
      omega

theorem ofMagnitude_fields (x : Double) :
    ofMagnitude x.isNegative (x.exponent * fractionSize + x.fraction) = x := by
  have hbits : (if x.isNegative then signBit + (x.exponent * fractionSize + x.fraction)
      else x.exponent * fractionSize + x.fraction) = x.bits.toNat := by
    rw [toNat_bits]
    split
    · rfl
    · exact (Nat.zero_add _).symm
  rw [ofMagnitude, hbits, UInt64.ofNat_toNat]

theorem eq_zero_iff : x.significand = 0 ↔ x.exponent = 0 ∧ x.fraction = 0 := by
  have hsize : 0 < fractionSize := by decide
  unfold significand
  split
  · next h => simp [h]
  · next h => simp only [h, false_and, iff_false]; omega

def size? (x : Double) : Option Nat :=
  if 0 ≤ x.scale then some (x.significand * twoTo x.scale.toNat)
  else
    if x.significand % twoTo (-x.scale).toNat = 0 then some (x.significand / twoTo (-x.scale).toNat) else none

theorem toInt?_eq (x : Double) : x.toInt? =
    if !x.isFinite then none else x.size?.map fun (k : Nat) => if x.isNegative then -(k : Int) else k := by
  change (if !x.isFinite then none else Option.map (fun n : Int => if x.isNegative then -n else n)
    (x.size?.bind fun k => some (k : Int))) = _
  cases x.size? <;> rfl

theorem twoTo_pos (t : Nat) : 0 < twoTo t := Nat.pow_pos (by decide)

theorem size?_of_nonneg (h : x.scale = (t : Int)) : x.size? = some (x.significand * 2 ^ t) := by
  rw [size?, h, if_pos (Int.natCast_nonneg t)]
  rfl

theorem size?_of_neg (h : x.scale = -(t : Int)) (hm : x.significand = k * 2 ^ t) : x.size? = some k := by
  have hpos := Nat.two_pow_pos t
  unfold size?
  split
  · next hscale =>
      obtain rfl : t = 0 := by omega
      simp [h, hm, twoTo]
  · rw [h, neg_neg, Int.toNat_natCast]
    change (if x.significand % 2 ^ t = 0 then some (x.significand / 2 ^ t) else none) = some k
    rw [hm, Nat.mul_mod_left, if_pos rfl, Nat.mul_div_cancel _ hpos]

/-- A size is the significand moved to the left, or to the right past zeros only. -/
theorem size?_cases (h : x.size? = some k) :
    (∃ t : Nat, x.scale = (t : Int) ∧ k = x.significand * 2 ^ t) ∨
      ∃ t : Nat, x.scale = -(t : Int) ∧ x.significand = k * 2 ^ t := by
  unfold size? at h
  split at h
  · next hscale =>
      obtain ⟨t, ht⟩ := Int.eq_ofNat_of_zero_le hscale
      refine .inl ⟨t, ht, ?_⟩
      rw [ht] at h
      exact (Option.some.inj h).symm
  · next hscale =>
      split at h
      · next hmod =>
          refine .inr ⟨(-x.scale).toNat, by omega, ?_⟩
          obtain rfl := Option.some.inj h
          exact (Nat.div_mul_cancel (Nat.dvd_of_mod_eq_zero hmod)).symm
      · cases h

theorem size?_eq_some_iff : x.size? = some k ↔ (x.significand : ℚ) * 2 ^ x.scale = k := by
  constructor
  · intro h
    obtain ⟨t, ht, rfl⟩ | ⟨t, ht, hm⟩ := size?_cases h
    · rw [ht, zpow_natCast]
      push_cast
      rfl
    · rw [ht, zpow_neg, zpow_natCast, hm]
      push_cast
      field_simp
  · intro h
    obtain ⟨t, ht | ht⟩ := Int.eq_nat_or_neg x.scale
    · rw [size?_of_nonneg ht]
      rw [ht, zpow_natCast] at h
      exact congrArg some (by exact_mod_cast h)
    · refine size?_of_neg ht ?_
      rw [ht, zpow_neg, zpow_natCast] at h
      field_simp at h
      rw [Nat.mul_comm]
      exact_mod_cast h

theorem value_eq_iff : x.value = n ↔
    ∃ k : Nat, x.size? = some k ∧ (if x.isNegative then -(k : Int) else k) = n := by
  simp only [size?_eq_some_iff]
  have hnonneg : 0 ≤ (x.significand : ℚ) * 2 ^ x.scale := by positivity
  unfold value
  generalize (x.significand : ℚ) * 2 ^ x.scale = size at hnonneg
  constructor
  · intro h
    refine ⟨n.natAbs, ?_, ?_⟩
    · rw [Nat.cast_natAbs]
      split at h
      · have hn : (n : ℚ) ≤ 0 := by linarith
        rw [abs_of_nonpos (by exact_mod_cast hn)]
        push_cast
        linarith
      · have hn : (0 : ℚ) ≤ n := by linarith
        rw [abs_of_nonneg (by exact_mod_cast hn)]
        linarith
    · split at h
      · next hneg =>
          have hn : (n : ℚ) ≤ 0 := by linarith
          rw [if_pos hneg, Int.ofNat_natAbs_of_nonpos (by exact_mod_cast hn), neg_neg]
      · next hneg =>
          have hn : (0 : ℚ) ≤ n := by linarith
          rw [if_neg hneg, Int.natAbs_of_nonneg (by exact_mod_cast hn)]
  · rintro ⟨k, rfl, rfl⟩
    split <;> simp

theorem toInt?_eq_some_iff : x.toInt? = some n ↔ x.isFinite ∧ x.value = n := by
  rw [toInt?_eq, value_eq_iff]
  cases x.isFinite with
  | false => simp
  | true => simp [Option.map_eq_some_iff]

theorem divNearestEven_mul (m : Nat) {d : Nat} (hd : 0 < d) : divNearestEven (m * d) d = m := by
  unfold divNearestEven
  rw [Nat.mul_mod_left, Nat.mul_div_cancel _ hd]
  simp [hd]

theorem floorLog2_one (hk : k ≠ 0) : floorLog2 k 1 = k.log2 := by
  have hle : 2 ^ k.log2 ≤ k := Nat.log2_self_le hk
  have hone : Nat.log2 1 = 0 := by decide
  unfold floorLog2
  simp only [hone, Nat.cast_zero, sub_zero, Int.natCast_nonneg, if_true, Int.toNat_natCast, one_mul]
  exact if_neg (by simpa [twoTo] using hle)

theorem nearestMagnitude_eq {unit : Int} (hk : k ≠ 0) (hlow : fractionSize ≤ m)
    (hhigh : m < 2 * fractionSize) (hunit : (k.log2 : Int) = 52 + unit) (hmax : unit < 972)
    (hsize : (∃ t : Nat, unit = (t : Int) ∧ k = m * 2 ^ t) ∨ ∃ t : Nat, unit = -(t : Int) ∧ m = k * 2 ^ t) :
    nearestMagnitude k 1 = (unit + 1075).toNat * fractionSize + (m - fractionSize) := by
  have hfloor : max (floorLog2 k 1 - 52) (-1074) = unit := by
    rw [floorLog2_one hk]
    omega
  have hround : (if 0 ≤ unit then divNearestEven k (1 * twoTo unit.toNat)
      else divNearestEven (k * twoTo (-unit).toNat) 1) = m := by
    obtain ⟨t, rfl, rfl⟩ | ⟨t, rfl, rfl⟩ := hsize
    · rw [if_pos (Int.natCast_nonneg t), Int.toNat_natCast, one_mul]
      exact divNearestEven_mul m (twoTo_pos t)
    · split
      · next ht =>
          obtain rfl : t = 0 := by omega
          simpa [twoTo] using divNearestEven_mul k Nat.one_pos
      · rw [neg_neg, Int.toNat_natCast]
        simpa [twoTo] using divNearestEven_mul (k * 2 ^ t) Nat.one_pos
  unfold nearestMagnitude
  simp only [hfloor, hround]
  rw [if_neg (by omega), Nat.min_eq_left]
  have hword : (unit + 1075).toNat ≤ 2046 := by omega
  have hmul : (unit + 1075).toNat * fractionSize ≤ 2046 * fractionSize := Nat.mul_le_mul_right _ hword
  omega

theorem exponent_ne_zero (h : x.size? = some k) (hk : k ≠ 0) : x.exponent ≠ 0 := by
  intro he
  have hscale : x.scale = -1074 := by simp [scale, he]
  have hm : x.significand = x.fraction := if_pos he
  obtain ⟨t, ht, -⟩ | ⟨t, ht, hsize⟩ := size?_cases h
  · omega
  · have hlt : x.significand < 2 ^ 52 := hm ▸ x.fraction_lt
    have hpow : 2 ^ 52 ≤ 2 ^ t := Nat.pow_le_pow_right (by decide) (by omega)
    have hle : 2 ^ t ≤ k * 2 ^ t := Nat.le_mul_of_pos_left _ (by omega)
    omega

theorem log2_of_size (hlow : 2 ^ 52 ≤ x.significand) (hhigh : x.significand < 2 ^ 53)
    (h : x.size? = some k) (hk : k ≠ 0) : (k.log2 : Int) = 52 + x.scale := by
  obtain ⟨t, ht, rfl⟩ | ⟨t, ht, hm⟩ := size?_cases h
  · have hlog : (x.significand * 2 ^ t).log2 = 52 + t := by
      refine (Nat.log2_eq_iff hk).2 ⟨?_, ?_⟩
      · rw [pow_add]
        exact Nat.mul_le_mul_right _ hlow
      · rw [add_right_comm, pow_add]
        exact Nat.mul_lt_mul_of_pos_right hhigh (by positivity)
    omega
  · have hle : t ≤ 52 := by
      by_contra hlt
      have hpow : 2 ^ 53 ≤ 2 ^ t := Nat.pow_le_pow_right (by decide) (by omega)
      have hmul : 2 ^ t ≤ k * 2 ^ t := Nat.le_mul_of_pos_left _ (by omega)
      omega
    obtain ⟨j, hj⟩ := Nat.exists_eq_add_of_le hle
    have hlog : k.log2 = j := by
      rw [hm] at hlow hhigh
      refine (Nat.log2_eq_iff hk).2 ⟨?_, ?_⟩
      · rw [hj, add_comm, pow_add] at hlow
        exact Nat.le_of_mul_le_mul_right hlow (by positivity)
      · rw [show 53 = j + 1 + t by omega, pow_add] at hhigh
        exact Nat.lt_of_mul_lt_mul_right hhigh
    omega

/-- The nearest number to an integer that is a number is that number, unless it is the negative zero. -/
theorem ofInt_eq (h : x.toInt? = some n) (hz : x ≠ zero true) : ofInt n = x := by
  have hfinite := (toInt?_eq_some_iff.1 h).1
  rw [toInt?_eq, hfinite] at h
  obtain ⟨k, hsize, rfl⟩ := Option.map_eq_some_iff.1 h
  have hfields := ofMagnitude_fields x
  by_cases hk : k = 0
  · subst hk
    have hm : x.significand = 0 := by
      obtain ⟨t, -, hm⟩ | ⟨t, -, hm⟩ := size?_cases hsize
      · exact (Nat.mul_eq_zero.1 hm.symm).resolve_right (by positivity)
      · rw [hm, zero_mul]
    obtain ⟨he, hf⟩ := eq_zero_iff.1 hm
    rw [he, hf, zero_mul, add_zero] at hfields
    cases hneg : x.isNegative with
    | true =>
        rw [hneg] at hfields
        exact absurd hfields.symm hz
    | false =>
        rw [hneg] at hfields
        exact hfields
  · have he := exponent_ne_zero hsize hk
    have hm : x.significand = fractionSize + x.fraction := if_neg he
    have hf := x.fraction_lt
    have hexp := exponent_lt hfinite
    have hscale : x.scale = (x.exponent : Int) - 1075 := by
      unfold scale
      omega
    have hlow : fractionSize ≤ x.significand := by omega
    have hhigh : x.significand < 2 * fractionSize := by omega
    have hmagnitude : nearestMagnitude k 1 = x.exponent * fractionSize + x.fraction := by
      rw [nearestMagnitude_eq hk hlow hhigh (log2_of_size hlow hhigh hsize hk) (by omega) (size?_cases hsize),
        hscale, hm, Nat.add_sub_cancel_left, Int.sub_add_cancel, Int.toNat_natCast]
    have hsign : (decide ((if x.isNegative then -(k : Int) else k) < 0)) = x.isNegative := by
      cases x.isNegative with
      | true => exact decide_eq_true (by simp; omega)
      | false => exact decide_eq_false (by simp)
    have habs : (if x.isNegative then -(k : Int) else k).natAbs = k := by split <;> simp
    rw [ofInt, ofFraction, habs, if_neg hk, hmagnitude, hsign]
    exact hfields

theorem eq_negativeZero_iff : (x.isZero && x.isNegative) = true ↔ x = zero true := by
  constructor
  · intro h
    have hfields := ofMagnitude_fields x
    simp only [isZero, Bool.and_eq_true, beq_iff_eq] at h
    rw [h.1.1, h.1.2, h.2] at hfields
    exact hfields.symm
  · rintro rfl
    decide

/-- The number is this integer, and not the negative zero. -/
def Holds (x : Double) (n : Int) : Prop := x.isFinite ∧ x.value = n ∧ x ≠ zero true

theorem holds_iff : x.Holds n ↔ x.toInt? = some n ∧ x ≠ zero true := by
  rw [toInt?_eq_some_iff, Holds, and_assoc]

theorem Holds.unique {m : Int} (h : x.Holds n) (hm : x.Holds m) : n = m := by
  exact_mod_cast h.2.1.symm.trans hm.2.1

end Double

namespace Code.Primitive

variable {x : Double} {n : Int}

theorem isInt32_iff : isInt32 n ↔ -2 ^ 31 ≤ n ∧ n < 2 ^ 31 := by
  simp [isInt32]

theorem isInt64_iff : isInt64 n ↔ -2 ^ 63 ≤ n ∧ n < 2 ^ 63 := by
  simp [isInt64]

theorem ofDouble_of_holds (h : x.Holds n) :
    ofDouble x = if isInt32 n then .int n else if isInt64 n then .long n else .double x := by
  obtain ⟨hint, hzero⟩ := Double.holds_iff.1 h
  unfold ofDouble
  rw [hint]
  exact if_neg (mt Double.eq_negativeZero_iff.1 hzero)

theorem ofDouble_of_not_holds (h : ∀ n, ¬ x.Holds n) : ofDouble x = .double x := by
  unfold ofDouble
  cases hint : x.toInt? with
  | none => rfl
  | some n =>
      have hzero : x = .zero true := by
        by_contra hne
        exact h n (Double.holds_iff.2 ⟨hint, hne⟩)
      exact if_pos (Double.eq_negativeZero_iff.2 hzero)

theorem isInt64_of_isInt32 (h : isInt32 n) : isInt64 n := by
  rw [isInt32_iff] at h
  rw [isInt64_iff]
  omega

/-- A constant is made of an integer in one of two ranges, or of the number itself. -/
theorem ofDouble_cases (x : Double) :
    (∃ n, x.Holds n ∧ isInt32 n ∧ ofDouble x = .int n) ∨
    (∃ n, x.Holds n ∧ ¬ isInt32 n ∧ isInt64 n ∧ ofDouble x = .long n) ∨
    (∀ n, x.Holds n → ¬ isInt64 n) ∧ ofDouble x = .double x := by
  by_cases hx : ∃ n, x.Holds n
  · obtain ⟨n, h⟩ := hx
    rw [ofDouble_of_holds h]
    split
    · next h32 => exact .inl ⟨n, h, h32, rfl⟩
    · next h32 =>
        split
        · next h64 => exact .inr (.inl ⟨n, h, h32, h64, rfl⟩)
        · next h64 => exact .inr (.inr ⟨fun m hm => hm.unique h ▸ h64, rfl⟩)
  · have hnone : ∀ n, ¬ x.Holds n := fun n hn => hx ⟨n, hn⟩
    exact .inr (.inr ⟨fun n hn => absurd hn (hnone n), ofDouble_of_not_holds hnone⟩)

theorem toDouble?_ofDouble (x : Double) : (ofDouble x).toDouble? = some x := by
  have hexact : ∀ n, x.Holds n → Double.ofInt n = x := fun n h =>
    Double.ofInt_eq (Double.holds_iff.1 h).1 (Double.holds_iff.1 h).2
  obtain ⟨n, hn, -, he⟩ | ⟨n, hn, -, -, he⟩ | ⟨-, he⟩ := ofDouble_cases x
  · rw [he, toDouble?, hexact n hn]
  · rw [he, toDouble?, hexact n hn]
  · rw [he, toDouble?]

theorem ofDouble_eq_int_iff : ofDouble x = .int n ↔ x.Holds n ∧ isInt32 n := by
  obtain ⟨m, hm, h32, he⟩ | ⟨m, hm, h32, -, he⟩ | ⟨hnone, he⟩ := ofDouble_cases x
  · rw [he, int.injEq]
    constructor
    · rintro rfl
      exact ⟨hm, h32⟩
    · exact fun h => hm.unique h.1
  · rw [he]
    exact iff_of_false nofun fun h => h32 (hm.unique h.1 ▸ h.2)
  · rw [he]
    exact iff_of_false nofun fun h => hnone n h.1 (isInt64_of_isInt32 h.2)

theorem ofDouble_eq_long_iff : ofDouble x = .long n ↔ x.Holds n ∧ ¬ isInt32 n ∧ isInt64 n := by
  obtain ⟨m, hm, h32, he⟩ | ⟨m, hm, h32, h64, he⟩ | ⟨hnone, he⟩ := ofDouble_cases x
  · rw [he]
    exact iff_of_false nofun fun h => h.2.1 (hm.unique h.1 ▸ h32)
  · rw [he, long.injEq]
    constructor
    · rintro rfl
      exact ⟨hm, h32, h64⟩
    · exact fun h => hm.unique h.1
  · rw [he]
    exact iff_of_false nofun fun h => hnone n h.1 h.2.2

theorem ofDouble_eq_double_iff : ofDouble x = .double x ↔ ∀ n, x.Holds n → ¬ isInt64 n := by
  obtain ⟨m, hm, h32, he⟩ | ⟨m, hm, -, h64, he⟩ | ⟨hnone, he⟩ := ofDouble_cases x
  · rw [he]
    exact iff_of_false nofun fun h => h m hm (isInt64_of_isInt32 h32)
  · rw [he]
    exact iff_of_false nofun fun h => h m hm h64
  · exact iff_of_true he hnone

/-- A constant made of a number is that number. It is the narrowest one: an integer of 32 bits if the number is
one, otherwise an integer of 64 bits if it is one, and a double otherwise, as the negative zero always is. -/
theorem narrowest_ofDouble (x : Double) :
    (ofDouble x).toDouble? = some x ∧
    (∀ n, ofDouble x = .int n ↔ x.Holds n ∧ -2 ^ 31 ≤ n ∧ n < 2 ^ 31) ∧
    (∀ n, ofDouble x = .long n ↔
      x.Holds n ∧ ¬(-2 ^ 31 ≤ n ∧ n < 2 ^ 31) ∧ -2 ^ 63 ≤ n ∧ n < 2 ^ 63) ∧
    (ofDouble x = .double x ↔ ∀ n, x.Holds n → ¬(-2 ^ 63 ≤ n ∧ n < 2 ^ 63)) := by
  simp only [← isInt32_iff, ← isInt64_iff]
  exact ⟨toDouble?_ofDouble x, fun _ => ofDouble_eq_int_iff, fun _ => ofDouble_eq_long_iff,
    ofDouble_eq_double_iff⟩

end Code.Primitive

end TwinView
