import TwinView.Proofs.Text.CodeUnits
import TwinView.Proofs.Text.Digits

/-!
The first thing that happens to Java text: escapes of code units are replaced, wherever they stand, and
before literals and comments are looked for. A backslash starts an escape if an even number of
backslashes stands right in front of it and a `u` behind it; then four hexadecimal digits have to come.
-/

namespace TwinView.Java

open Text

/-- A code unit of the text, and whether an escape spells it. -/
@[ext]
structure CodeUnit where
  code : Nat
  spelled : Bool
deriving DecidableEq, Repr

def codes (us : List CodeUnit) : List Nat := us.map (·.code)

def plainUnits (c : Char) : List CodeUnit := (utf16Units c).map (⟨·, false⟩)

inductive Reading
  /-- In front of a character; the backslashes right in front of it are odd in number, or even. -/
  | character (odd : Bool)
  /-- Behind the backslash of an escape; more than one `u` may follow. -/
  | marker
  /-- In front of the last `left + 1` digits of an escape. -/
  | digit (left value : Nat)

/-- Replaces the escapes in the rest of a text. One that is cut short is refused. -/
def translateFrom : Reading → List Char → Option (List CodeUnit)
  | .character _, [] => some []
  | .marker, [] => none
  | .digit _ _, [] => none
  | .character odd, c :: rest =>
    if c = '\\' && !odd && rest.head? = some 'u' then translateFrom .marker rest
    else (translateFrom (.character (c = '\\' && !odd)) rest).map (plainUnits c ++ ·)
  | .marker, c :: rest =>
    if c = 'u' then translateFrom .marker rest
    else if isHexDigit c then translateFrom (.digit 2 (hexValue c)) rest
    else none
  | .digit left value, c :: rest =>
    if isHexDigit c then
      match left with
      | 0 => (translateFrom (.character false) rest).map (⟨16 * value + hexValue c, true⟩ :: ·)
      | left + 1 => translateFrom (.digit left (16 * value + hexValue c)) rest
    else none

def translate (s : String) : Option (List CodeUnit) := translateFrom (.character false) s.toList

variable {c : Char} {cs : List Char}

@[simp]
theorem codes_cons (u : CodeUnit) (us : List CodeUnit) : codes (u :: us) = u.code :: codes us := rfl

@[simp]
theorem codes_append (us vs : List CodeUnit) : codes (us ++ vs) = codes us ++ codes vs :=
  List.map_append

@[simp]
theorem codes_plainUnits (c : Char) : codes (plainUnits c) = utf16Units c := by
  simp [codes, plainUnits, Function.comp_def]

/-- In front of any rest, the text is translated to `us`, and no backslash at its end counts. -/
def Translates (cs : List Char) (us : List CodeUnit) : Prop :=
  ReadsOff (translateFrom (.character false)) cs us

theorem translates_self (h : c ≠ '\\') : Translates [c] (plainUnits c) := by
  intro rest
  simp [translateFrom, h]

theorem translates_pair (h : c ≠ 'u') : Translates ['\\', c] (plainUnits '\\' ++ plainUnits c) := by
  intro rest
  simp [translateFrom, h, Function.comp_def]

theorem translateFrom_digits {left value : Nat} (hlength : cs.length = left + 1) (hdigits : cs.all isHexDigit)
    (rest : List Char) : translateFrom (.digit left value) (cs ++ rest) =
      (translateFrom (.character false) rest).map
        (⟨cs.foldl (fun n c => 16 * n + hexValue c) value, true⟩ :: ·) := by
  induction cs generalizing left value with
  | nil => simp at hlength
  | cons c cs ih =>
      rw [List.all_cons, Bool.and_eq_true] at hdigits
      cases left with
      | zero =>
          obtain rfl : cs = [] := by simpa using hlength
          rw [List.cons_append, translateFrom, if_pos hdigits.1]
          rfl
      | succ left =>
          rw [List.cons_append, translateFrom, if_pos hdigits.1]
          exact ih (by simpa using hlength) hdigits.2

theorem translates_escape {u : Nat} (h : u < 16 ^ 4) :
    Translates ('\\' :: 'u' :: upperHex 4 u) [⟨u, true⟩] := by
  intro rest
  have hlength := length_upperHex 4 u
  have hdigits := all_upperHex 4 u
  have hnumber := hexNumber_upperHex h
  cases hhex : upperHex 4 u with
  | nil => simp [hhex] at hlength
  | cons d ds =>
      rw [hhex, List.all_cons, Bool.and_eq_true] at hdigits
      have hu : d ≠ 'u' := by
        rintro rfl
        exact absurd hdigits.1 (by decide)
      have hfold : ds.foldl (fun n c => 16 * n + hexValue c) (hexValue d) = u := by
        rw [← hnumber, hhex, hexNumber, List.foldl_cons, Nat.mul_zero, Nat.zero_add]
      simp only [List.cons_append, translateFrom, hu, hdigits.1]
      rw [translateFrom_digits (by simpa [hhex] using hlength) hdigits.2, hfold]
      rfl

theorem translates_unitEscapes (c : Char) : Translates (unitEscapes c) ((utf16Units c).map (⟨·, true⟩)) := by
  rw [List.map_eq_flatMap]
  exact ReadsOff.flatMap fun u hu => translates_escape (lt_of_mem_utf16Units hu)

end TwinView.Java
