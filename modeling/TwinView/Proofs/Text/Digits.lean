import Mathlib.Algebra.Group.Nat.Defs
import Mathlib.Tactic.SplitIfs
import TwinView.Text.Chars

/-!
Hexadecimal digits. A number that is written with enough digits is read back from them.
-/

namespace TwinView.Text

theorem upperHexDigit_spec : ∀ d < 16, isHexDigit (upperHexDigit d) ∧ hexValue (upperHexDigit d) = d := by
  decide

theorem length_upperHex (width n : Nat) : (upperHex width n).length = width := by
  induction width generalizing n with
  | zero => rfl
  | succ width ih => rw [upperHex, List.length_append, ih]; rfl

theorem all_upperHex (width n : Nat) : (upperHex width n).all isHexDigit := by
  induction width generalizing n with
  | zero => rfl
  | succ width ih =>
      rw [upperHex, List.all_append, ih]
      simpa using (upperHexDigit_spec (n % 16) (Nat.mod_lt _ (by decide))).1

theorem hexNumber_upperHex {width n : Nat} (h : n < 16 ^ width) : hexNumber (upperHex width n) = n := by
  induction width generalizing n with
  | zero =>
      rw [Nat.pow_zero, Nat.lt_one_iff] at h
      rw [h]
      rfl
  | succ width ih =>
      have hdigit := (upperHexDigit_spec (n % 16) (Nat.mod_lt _ (by decide))).2
      have hhigh : n / 16 < 16 ^ width := Nat.div_lt_of_lt_mul (by rwa [Nat.pow_succ, Nat.mul_comm] at h)
      have hfold (cs : List Char) (d : Char) : hexNumber (cs ++ [d]) = 16 * hexNumber cs + hexValue d := by
        rw [hexNumber, List.foldl_append]
        rfl
      rw [upperHex, hfold, ih hhigh, hdigit]
      omega

theorem codePointHex_spec (c : Char) :
    codePointHex c ≠ [] ∧ (codePointHex c).all isHexDigit ∧ hexNumber (codePointHex c) = c.toNat := by
  have hlt : c.toNat < 0x110000 := by
    rcases c.valid with h | ⟨-, h⟩
    · exact Nat.lt_trans h (by decide)
    · exact h
  obtain ⟨width, hpos, hbound, heq⟩ : ∃ width, 0 < width ∧ c.toNat < 16 ^ width ∧
      codePointHex c = upperHex width c.toNat := by
    refine ⟨_, ?_, ?_, rfl⟩
    · split_ifs <;> decide
    · split_ifs <;> omega
  rw [heq]
  refine ⟨List.ne_nil_of_length_pos ?_, all_upperHex _ _, hexNumber_upperHex hbound⟩
  rwa [length_upperHex]

theorem of_mem_unitEscapes {c d : Char} (h : d ∈ unitEscapes c) : d = '\\' ∨ d = 'u' ∨ isHexDigit d := by
  obtain ⟨u, -, hd⟩ := List.mem_flatMap.1 h
  rw [List.mem_cons, List.mem_cons] at hd
  exact hd.imp_right fun hd => hd.imp_right fun hd => List.all_eq_true.1 (all_upperHex 4 u) d hd

theorem exists_unitEscapes (c : Char) : ∃ es, unitEscapes c = '\\' :: es := by
  unfold unitEscapes utf16Units
  dsimp only
  split_ifs <;> exact ⟨_, rfl⟩

end TwinView.Text
