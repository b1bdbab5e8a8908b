import TwinView.Java.Literal
import TwinView.Proofs.Java.Escapes

/-!
Literals of Java read back. A string or a character is written so that whoever replaces the escapes of
code units, and then reads the escapes between the quotes, gets the code units of the text.
-/

namespace TwinView.Java

open Text Code

inductive Literal
  | text (units : List Nat)
  | character (unit : Nat)
deriving DecidableEq, Repr

def Literal.units : Literal → List Nat
  | .text units => units
  | .character unit => [unit]

def namedEscapes : List (Nat × Nat) := [
  ('b'.toNat, 0x08), ('t'.toNat, 0x09), ('n'.toNat, 0x0A), ('f'.toNat, 0x0C), ('r'.toNat, 0x0D),
  ('s'.toNat, 0x20), ('"'.toNat, 0x22), ('\''.toNat, 0x27), ('\\'.toNat, 0x5C)]

def isOctalDigit (u : Nat) : Bool := '0'.toNat ≤ u && u ≤ '7'.toNat

/-- The digits of an octal escape: three of them only if the first is at most `3`. -/
def octalDigits (u : Nat) (us : List Nat) : List Nat :=
  ((u :: us).takeWhile isOctalDigit).take (if u ≤ '3'.toNat then 3 else 2)

/-- The escape behind a backslash: what it stands for, and how many code units it takes. -/
def escape? : List Nat → Option (List Nat × Nat)
  | [] => none
  | u :: us =>
    if isOctalDigit u then
      let digits := octalDigits u us
      some ([digits.foldl (fun n d => 8 * n + (d - '0'.toNat)) 0], digits.length)
    else (namedEscapes.lookup u).map fun value => ([value], 1)

def literal? (s : String) : Option Literal :=
  match (translate s).map codes with
  | some (u :: rest) =>
    if u = '"'.toNat then (unquoteFrom escape? u 0 rest).map .text
    else if u = '\''.toNat then
      match unquoteFrom escape? u 0 rest with
      | some [unit] => some (.character unit)
      | _ => none
    else none
  | _ => none

variable {c q : Char} {cs : List Char} {value : List Nat}

/-- Between the quotes `q`, the characters denote the code units `value`. -/
def Denotes (q : Char) (cs : List Char) (value : List Nat) : Prop :=
  ∃ us, Translates cs us ∧ Unquotes escape? q.toNat (codes us) value

theorem Denotes.append {cs' : List Char} {value' : List Nat} (h : Denotes q cs value)
    (h' : Denotes q cs' value') : Denotes q (cs ++ cs') (value ++ value') := by
  obtain ⟨us, hus, hvalue⟩ := h
  obtain ⟨us', hus', hvalue'⟩ := h'
  exact ⟨us ++ us', hus.append hus', codes_append us us' ▸ hvalue.append hvalue'⟩

theorem denotes_flatMap {f : Char → List Char} {g : Char → List Nat} (h : ∀ c, Denotes q (f c) (g c))
    (cs : List Char) : Denotes q (cs.flatMap f) (cs.flatMap g) := by
  induction cs with
  | nil => exact ⟨[], ReadsOff.nil, ReadsOff.nil⟩
  | cons c cs ih => exact (h c).append ih

/-- A backslash and the character `k` stand for `c`. -/
structure EscapedBy (k c : Char) : Prop where
  named : namedEscapes.lookup k.toNat = some c.toNat
  notOctal : isOctalDigit k.toNat = false
  notMarker : k ≠ 'u'
  basic : utf16Units k = [k.toNat] ∧ utf16Units c = [c.toNat]

theorem EscapedBy.denotes {k : Char} (h : EscapedBy k c) (hq : q ≠ '\\') :
    Denotes q ['\\', k] (utf16Units c) := by
  refine ⟨_, translates_pair h.notMarker, ?_⟩
  have hescape (rest : List Nat) : escape? ([k.toNat] ++ rest) = some ([c.toNat], [k.toNat].length) := by
    simp [escape?, h.notOctal, h.named]
  have hslash : q.toNat ≠ '\\'.toNat := fun heq => hq (Char.toNat_inj.1 heq)
  rw [codes_append, codes_plainUnits, codes_plainUnits, h.basic.1, h.basic.2]
  exact unquotes_escape hslash hescape

theorem escapedBy_of_mem {p : Char × String} (h : p ∈ escapes) :
    ∃ k, p.2.toList = ['\\', k] ∧ EscapedBy k p.1 := by
  simp only [escapes, List.mem_cons, List.not_mem_nil, or_false] at h
  obtain rfl | rfl | rfl | rfl | rfl | rfl := h
  · exact ⟨'\\', rfl, by decide, by decide, by decide, by decide⟩
  · exact ⟨'t', rfl, by decide, by decide, by decide, by decide⟩
  · exact ⟨'n', rfl, by decide, by decide, by decide, by decide⟩
  · exact ⟨'r', rfl, by decide, by decide, by decide, by decide⟩
  · exact ⟨'f', rfl, by decide, by decide, by decide, by decide⟩
  · exact ⟨'b', rfl, by decide, by decide, by decide, by decide⟩

def IsQuote (q : Char) : Prop := q = '"' ∨ q = '\''

theorem IsQuote.escapedBy (h : IsQuote q) : EscapedBy q q := by
  obtain rfl | rfl := h
  · exact ⟨by decide, by decide, by decide, by decide⟩
  · exact ⟨by decide, by decide, by decide, by decide⟩

theorem denotes_escapeChar (hq : IsQuote q) (c : Char) : Denotes q (escapeChar q c) (utf16Units c) := by
  have hslash : q ≠ '\\' := by rintro rfl; exact absurd hq (by simp [IsQuote])
  have hsmall : q.toNat < 0xD800 := by obtain rfl | rfl := hq <;> decide
  unfold escapeChar
  split
  · next hquote =>
      subst hquote
      exact hq.escapedBy.denotes hslash
  next hquote =>
  split
  · next escape hescape =>
      obtain ⟨before, behind, hsplit, -⟩ := List.lookup_eq_some_iff.1 hescape
      obtain ⟨k, htext, hescaped⟩ := escapedBy_of_mem (p := (c, escape)) (by simp [hsplit])
      rw [htext]
      exact hescaped.denotes hslash
  · next hnone =>
      have hne {d : Char} (hd : (escapes.lookup d).isSome) : c ≠ d := by
        rintro rfl
        simp [hnone] at hd
      have hplain : ∀ u ∈ utf16Units c, Plain q.toNat u :=
        plain_utf16Units hsmall hquote (hne (by decide)) (hne (by decide)) (hne (by decide))
      split
      · refine ⟨_, translates_self (hne (by decide)), ?_⟩
        rw [codes_plainUnits]
        exact unquotes_plain hplain
      · refine ⟨_, translates_unitEscapes c, ?_⟩
        simpa [codes, Function.comp_def] using unquotes_plain hplain

theorem unquote_of_denotes (hq : IsQuote q) (h : Denotes q cs value) :
    ∃ rest, (translate (String.ofList (q :: cs ++ [q]))).map codes = some (q.toNat :: rest) ∧
      unquoteFrom escape? q.toNat 0 rest = some value := by
  obtain ⟨us, hus, hvalue⟩ := h
  have hslash : q ≠ '\\' := by rintro rfl; exact absurd hq (by simp [IsQuote])
  have hquote : Translates [q] (plainUnits q) := translates_self hslash
  have hall := ((hquote.append hus).append hquote) []
  refine ⟨_, ?_, hvalue.closes⟩
  rw [translate, String.toList_ofList]
  simp only [List.append_nil, List.singleton_append] at hall
  rw [hall]
  simp [translateFrom, hq.escapedBy.basic.1]

theorem literal?_stringLiteral (s : Settings) (value : String) :
    literal? (stringLiteral s value) = some (.text (utf16 (convertText s value))) := by
  have hdenotes := denotes_flatMap (denotes_escapeChar (q := '"') (.inl rfl)) (convertText s value).toList
  obtain ⟨rest, htranslate, hvalue⟩ := unquote_of_denotes (.inl rfl) hdenotes
  rw [literal?, stringLiteral, htranslate]
  exact (if_pos rfl).trans (congrArg (Option.map Literal.text) hvalue)

theorem literal?_quotedChar (hc : utf16Units c = [c.toNat]) :
    literal? (String.ofList ('\'' :: escapeChar '\'' c ++ ['\''])) = some (.character c.toNat) := by
  obtain ⟨rest, htranslate, hvalue⟩ := unquote_of_denotes (.inr rfl) (denotes_escapeChar (.inr rfl) c)
  rw [literal?, htranslate]
  refine (if_neg (by decide)).trans ((if_pos rfl).trans ?_)
  rw [hvalue, hc]

/-- A character beyond the basic plane has no literal of its own, and is written as a string. -/
def Literal.ofChar (c : Char) : Literal :=
  if c.toNat < 0x10000 then .character c.toNat else .text (utf16Units c)

theorem units_ofChar (c : Char) : (Literal.ofChar c).units = utf16Units c := by
  unfold Literal.ofChar utf16Units
  dsimp only
  split <;> rfl

/-- The literals of strings and characters denote them, code unit by code unit. -/
theorem literal?_primitive (s : Settings) (h : s.convertLineEndings = false) :
    (∀ value, literal? (primitive s (.text value)) = some (.text (utf16 value))) ∧
      ∀ c, literal? (primitive s (.char c)) = some (.ofChar c) ∧ (Literal.ofChar c).units = utf16Units c := by
  have hconvert (value : String) : convertText s value = value := by simp [convertText, h]
  refine ⟨fun value => ?_, fun c => ⟨?_, units_ofChar c⟩⟩
  · rw [primitive, literal?_stringLiteral, hconvert]
  · rw [primitive, charLiteral, if_neg (by simp [h]), if_neg (by simp [h]), Literal.ofChar]
    split
    · next hbeyond =>
        rw [literal?_stringLiteral, hconvert, if_neg (by omega)]
        simp [utf16]
    · next hbasic =>
        rw [if_pos (by omega)]
        exact literal?_quotedChar (utf16Units_of_lt (by omega))

/-- Backslashes in front of what looks like an escape, next to characters that are written as escapes. -/
theorem literal?_primitive_backslashes : ({} : Settings).convertLineEndings = false ∧
    literal? (primitive {} (.text "\\u0041\\é😀\"")) =
      some (.text [0x5C, 0x75, 0x30, 0x30, 0x34, 0x31, 0x5C, 0xE9, 0xD83D, 0xDE00, 0x22]) ∧
    literal? (primitive {} (.char '\'')) = some (.character 0x27) ∧
    literal? (primitive {} (.char '😀')) = some (.text [0xD83D, 0xDE00]) := by
  obtain ⟨htext, hchar⟩ := literal?_primitive {} rfl
  exact ⟨rfl, (htext _).trans (by decide), (hchar _).1.trans (by decide),
    (hchar _).1.trans (by decide)⟩

end TwinView.Java
