import TwinView.Client.Source
import TwinView.Proofs.Client.Escapes
import TwinView.Proofs.Text.CodeUnits

/-!
String literals of client code as a browser reads them: code unit by code unit, so that a character
beyond the basic plane may be written as two escapes.
-/

namespace TwinView.Client

open Text

def letterUnits : List (Nat × Nat) := [
  ('b'.toNat, 0x08), ('t'.toNat, 0x09), ('n'.toNat, 0x0A), ('v'.toNat, 0x0B), ('f'.toNat, 0x0C),
  ('r'.toNat, 0x0D)]

def hexUnits? (count : Nat) (us : List Nat) : Option Nat :=
  let digits := (us.take count).map Char.ofNat
  if digits.length = count ∧ digits.all isHexDigit then some (hexNumber digits) else none

/-- The code units of a number that stands for a character, or for one half of one. -/
def codePointUnits (n : Nat) : List Nat :=
  if n < 0x10000 then [n] else [0xD800 + (n - 0x10000) / 0x400, 0xDC00 + (n - 0x10000) % 0x400]

def bracedUnits? (us : List Nat) : Option (List Nat × Nat) :=
  let digits := (us.map Char.ofNat).takeWhile isHexDigit
  if digits ≠ [] ∧ us[digits.length]? = some '\x7d'.toNat ∧ hexNumber digits < 0x110000 then
    some (codePointUnits (hexNumber digits), digits.length + 3)
  else none

/-- The escape behind a backslash: what it stands for, and how many code units it takes. A line break
stands for nothing; a digit has no meaning, other than a lone zero; what has no meaning of its own stands
for itself. -/
def escapeUnits? : List Nat → Option (List Nat × Nat)
  | [] => none
  | u :: us =>
    if u = 'x'.toNat then (hexUnits? 2 us).map fun n => ([n], 3)
    else if u = 'u'.toNat then
      if us.head? = some '\x7b'.toNat then bracedUnits? us.tail
      else (hexUnits? 4 us).map fun n => ([n], 5)
    else if u = '\r'.toNat then some ([], if us.head? = some '\n'.toNat then 2 else 1)
    else if u = '\n'.toNat ∨ u = 0x2028 ∨ u = 0x2029 then some ([], 1)
    else if isDigit (Char.ofNat u) then
      if u = '0'.toNat ∧ ¬ us.head?.any (fun v => isDigit (Char.ofNat v)) then some ([0], 1) else none
    else some ([(letterUnits.lookup u).getD u], 1)

def literal? (s : String) : Option (List Nat) :=
  match utf16 s with
  | u :: rest => if u = '\''.toNat ∨ u = '"'.toNat then unquoteFrom escapeUnits? u 0 rest else none
  | [] => none

variable {c : Char} {cs : List Char}

/-- Between single quotes, the characters `cs` are read as `value`. -/
def ReadAs (cs : List Char) (value : List Nat) : Prop :=
  Unquotes escapeUnits? '\''.toNat (cs.flatMap utf16Units) value

theorem readAs_escape {k : Char} (hk : utf16Units k = [k.toNat]) (hc : utf16Units c = [c.toNat])
    (h : ∀ rest, escapeUnits? (k.toNat :: rest) = some ([c.toNat], 1)) :
    ReadAs ['\\', k] (utf16Units c) := by
  have hunits : ['\\', k].flatMap utf16Units = '\\'.toNat :: [k.toNat] := by
    rw [List.flatMap_cons, List.flatMap_cons, hk]
    rfl
  rw [ReadAs, hunits, hc]
  exact unquotes_escape (by decide) h

theorem flatMap_utf16Units_upperHex (width n : Nat) :
    (upperHex width n).flatMap utf16Units = (upperHex width n).map Char.toNat := by
  have hdigit : ∀ d < 16, utf16Units (upperHexDigit d) = [(upperHexDigit d).toNat] := by decide
  induction width generalizing n with
  | zero => rfl
  | succ width ih =>
      rw [upperHex, List.flatMap_append, List.map_append, ih]
      simp [hdigit (n % 16) (Nat.mod_lt _ (by decide))]

theorem hexUnits?_upperHex {n : Nat} (h : n < 16 ^ 4) (rest : List Nat) :
    hexUnits? 4 ((upperHex 4 n).map Char.toNat ++ rest) = some n := by
  have htake : ((upperHex 4 n).map Char.toNat ++ rest).take 4 = (upperHex 4 n).map Char.toNat :=
    List.take_left' (by rw [List.length_map, length_upperHex])
  have hchars : ((upperHex 4 n).map Char.toNat).map Char.ofNat = upperHex 4 n := by
    rw [List.map_map]
    simp [Function.comp_def, Char.ofNat_toNat]
  rw [hexUnits?, htake, hchars]
  simp [length_upperHex, all_upperHex, hexNumber_upperHex h]

theorem readAs_unitEscape {n : Nat} (h : n < 16 ^ 4) : ReadAs ('\\' :: 'u' :: upperHex 4 n) [n] := by
  have hunits : ('\\' :: 'u' :: upperHex 4 n).flatMap utf16Units =
      '\\'.toNat :: 'u'.toNat :: (upperHex 4 n).map Char.toNat := by
    rw [List.flatMap_cons, List.flatMap_cons, flatMap_utf16Units_upperHex]
    rfl
  have hbrace (rest : List Nat) :
      ((upperHex 4 n).map Char.toNat ++ rest).head? ≠ some '\x7b'.toNat := by
    have hlength := length_upperHex 4 n
    have hdigits := all_upperHex 4 n
    cases hhex : upperHex 4 n with
    | nil => simp [hhex] at hlength
    | cons d ds =>
        rw [hhex, List.all_cons, Bool.and_eq_true] at hdigits
        intro heq
        obtain rfl : d = '\x7b' := Char.toNat_inj.1 (Option.some.inj heq)
        exact absurd hdigits.1 (by decide)
  rw [ReadAs, hunits]
  refine unquotes_escape (by decide) fun rest => ?_
  rw [List.cons_append, escapeUnits?, if_neg (by decide), if_pos rfl, if_neg (hbrace rest),
    hexUnits?_upperHex h]
  simp [length_upperHex]

theorem readAs_unitEscapes (c : Char) : ReadAs (unitEscapes c) (utf16Units c) := by
  have hunits := ReadsOff.flatMap fun u (hu : u ∈ utf16Units c) => readAs_unitEscape (lt_of_mem_utf16Units hu)
  rwa [← List.flatMap_assoc, List.flatMap_singleton'] at hunits

theorem readAs_escapeChar (c : Char) : ReadAs (escapeChar .script c) (utf16Units c) := by
  obtain ⟨hprintable, hquote, hslash, hescape⟩ | ⟨k, hk, hescape⟩ | ⟨-, hescape⟩ := escapeChar_spec .script c
  · have hfeed : c ≠ '\n' := by
      rintro rfl
      exact absurd hprintable (by decide)
    have hreturn : c ≠ '\r' := by
      rintro rfl
      exact absurd hprintable (by decide)
    rw [hescape, ReadAs, List.flatMap_singleton]
    exact unquotes_plain (plain_utf16Units (by decide) hquote hfeed hreturn hslash)
  · have hletters : ∀ p ∈ shortEscapes .script, ReadAs ['\\', p.1] (utf16Units p.2) := by
      simp only [shortEscapes, List.forall_mem_cons]
      refine ⟨?_, ?_, ?_, ?_, ?_, ?_, ?_, List.forall_mem_nil _⟩
      all_goals exact readAs_escape rfl rfl fun _ => rfl
    rw [hescape]
    exact hletters _ hk
  · rw [hescape]
    exact readAs_unitEscapes c

theorem literal?_stringLiteral (value : String) : literal? (stringLiteral value) = some (utf16 value) := by
  have hunits : utf16 (stringLiteral value) = '\''.toNat ::
      (value.toList.flatMap fun c => (escapeChar .script c).flatMap utf16Units) ++ ['\''.toNat] := by
    rw [utf16, toList_stringLiteral, List.flatMap_cons, List.flatMap_append, List.flatMap_assoc]
    rfl
  rw [literal?, hunits]
  have hvalue : Unquotes escapeUnits? '\''.toNat _ (utf16 value) :=
    ReadsOff.flatMap fun c (_ : c ∈ value.toList) => readAs_escapeChar c
  exact (if_pos (.inl rfl)).trans hvalue.closes

end TwinView.Client
