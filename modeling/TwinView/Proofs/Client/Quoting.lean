import TwinView.Proofs.Client.Lexemes
import TwinView.Proofs.Text.CodeUnits
import TwinView.Proofs.Text.Positions

/-!
String literals as the scanner of the binding language reads them. It takes an escape for one character,
so that a literal is read back exactly if each of its characters is one code unit; otherwise it is refused
at the first one that is written as two escapes.
-/

namespace TwinView.Client

open Text Script

variable {c : Char} {cs front behind : List Char} {value : String}

theorem escapeChar_of_not_isBasic (format : Format) (h : isBasic c = false) : ∃ high low,
    0xD800 ≤ high ∧ high ≤ 0xDBFF ∧
      escapeChar format c = '\\' :: ('u' :: upperHex 4 high ++ '\\' :: 'u' :: upperHex 4 low) := by
  have hbeyond : ¬ c.toNat < 0x10000 := of_decide_eq_false h
  obtain ⟨hlt, -⟩ | ⟨high, low, hunits, hhigh, hhigh', -⟩ := utf16Units_cases c
  · exact absurd hlt hbeyond
  · refine ⟨high, low, hhigh, hhigh', ?_⟩
    obtain ⟨hprintable, -⟩ | ⟨k, hk, -⟩ | ⟨-, hescape⟩ := escapeChar_spec format c
    · simp only [isPrintable, Bool.and_eq_true, decide_eq_true_eq] at hprintable
      exact absurd (Nat.lt_trans hprintable.2 (by decide)) hbeyond
    · have hletters : ∀ p ∈ shortEscapes format, p.2.toNat < 0x10000 := by cases format <;> decide
      exact absurd (hletters _ hk) hbeyond
    · rw [hescape, unitEscapes, hunits]
      simp

/-- A character beyond the basic plane is refused where it stands: the first of its escapes is no
character. -/
theorem scanText_not_isBasic (start here : Nat) (h : isBasic c = false) (rest : List Char) :
    scanText '\'' start 0 here (escapeChar .script c ++ rest) = .error ⟨.invalidEscape, here⟩ := by
  obtain ⟨high, low, hhigh, hhigh', hescape⟩ := escapeChar_of_not_isBasic .script h
  have hnone : charOf? high = none := by
    rw [charOf?, if_neg]
    intro hvalid
    obtain hlt | ⟨hgt, -⟩ := hvalid <;> omega
  rw [hescape, List.cons_append, scanText, if_neg (by decide), if_neg (by decide), if_pos rfl,
    List.append_assoc, escape?_upperHex (Nat.lt_of_le_of_lt hhigh' (by decide)), hnone]

theorem skip_quote (cs : List Char) : skip .blanks 0 ('\'' :: cs) = .ok ⟨0, '\'' :: cs⟩ :=
  skip_token (by decide) (by decide) 0 cs

theorem tokenize_stringLiteral (h : IsBasicText value) : tokenize (stringLiteral value) =
    .ok [⟨0, byteLength (stringLiteral value).toList, .text value⟩] := by
  have hlength : byteLength (stringLiteral value).toList =
      0 + 1 + byteLength (value.toList.flatMap (escapeChar .script)) + 1 := by
    rw [toList_stringLiteral, byteLength, byteLength_append, Nat.zero_add, Nat.add_assoc]
    rfl
  have hscan := scanText_quoted 0 (0 + 1) [] h
  rw [← hlength] at hscan
  generalize byteLength (stringLiteral value).toList = stop at hscan ⊢
  have htoken : scanToken 0 '\'' (value.toList.flatMap (escapeChar .script) ++ ['\'']) =
      .ok (⟨0, stop, .text value⟩, ⟨stop, []⟩) := by
    rw [scanToken_quote, hscan]
    show Except.ok (_, _) = _
    rw [String.ofList_toList]
  refine tokenize_of_scans ?_
  rw [toList_stringLiteral]
  exact .token (skip_quote _) htoken (.done (by unfold skip; rfl))

theorem tokenize_not_isBasic (hvalue : value.toList = front ++ c :: behind) (hfront : ∀ d ∈ front, isBasic d)
    (hc : isBasic c = false) : tokenize (stringLiteral value) =
      .error ⟨.invalidEscape, byteLength ('\'' :: front.flatMap (escapeChar .script))⟩ := by
  have hscan : scanToken 0 '\'' (value.toList.flatMap (escapeChar .script) ++ ['\'']) =
      .error ⟨.invalidEscape, byteLength ('\'' :: front.flatMap (escapeChar .script))⟩ := by
    rw [scanToken_quote, hvalue, List.flatMap_append, List.flatMap_cons, List.append_assoc, List.append_assoc,
      scanText_escaped 0 (0 + 1) hfront, scanText_not_isBasic 0 _ hc, byteLength, Nat.zero_add]
    rfl
  refine tokenize_of_scans ?_
  rw [toList_stringLiteral]
  exact .badToken (skip_quote _) hscan

theorem after_start_printable (h : ∀ d ∈ cs, isPrintable d) :
    Position.after ⟨0, 1, 0⟩ cs = ⟨cs.length, 1, cs.length⟩ := by
  have hbreak : ∀ d ∈ cs, d ≠ '\n' := by
    rintro _ hd rfl
    exact absurd (h _ hd) (by decide)
  have hascii : ∀ d ∈ cs, d ≤ '\x7F' := by
    intro d hd
    have hprintable := h d hd
    simp only [isPrintable, Bool.and_eq_true, decide_eq_true_eq] at hprintable
    exact Std.le_of_lt hprintable.2
  rw [Position.after_start, byteLength_eq_length hascii, List.count_eq_zero_of_not_mem fun hd => hbreak _ hd rfl,
    Position.lastLine_of_forall hbreak]

/-- A string literal is one token with the text as its value if every character of the text is one code
unit. Otherwise it is refused, and the place is the escape of the first character that is not. -/
theorem stringLiteral_read_back (value : String) :
    (IsBasicText value → tokenize (stringLiteral value) =
      .ok [⟨0, byteLength (stringLiteral value).toList, .text value⟩]) ∧
    ∀ front c behind, value.toList = front ++ c :: behind → (∀ d ∈ front, isBasic d) → isBasic c = false →
      ∃ before after r, (stringLiteral value).toList = before ++ (escapeChar .script c ++ after) ∧
        before = '\'' :: front.flatMap (escapeChar .script) ∧ tokenize (stringLiteral value) = .error r ∧
        r.toError (stringLiteral value) = .script .invalidEscape ⟨before.length, 1, before.length⟩ := by
  refine ⟨tokenize_stringLiteral, fun front c behind hvalue hfront hc => ?_⟩
  have hliteral : (stringLiteral value).toList = '\'' :: front.flatMap (escapeChar .script) ++
      (escapeChar .script c ++ (behind.flatMap (escapeChar .script) ++ ['\''])) := by
    rw [toList_stringLiteral, hvalue]
    simp
  have hprintable : ∀ d ∈ '\'' :: front.flatMap (escapeChar .script), isPrintable d := by
    refine List.forall_mem_cons.2 ⟨by decide, fun d hd => ?_⟩
    obtain ⟨_, -, hd⟩ := List.mem_flatMap.1 hd
    exact isPrintable_of_mem_escapeChar hd
  refine ⟨_, _, _, hliteral, rfl, tokenize_not_isBasic hvalue hfront hc, ?_⟩
  rw [Refusal.toError, Position.locate_eq_after hliteral, after_start_printable hprintable]

/-- A quote and a letter that are escaped, and a clef behind another letter. -/
theorem stringLiteral_read_back_clef :
    IsBasicText "it's é" ∧ tokenize (stringLiteral "it's é") = .ok [⟨0, 14, .text "it's é"⟩] ∧
      ∃ r, tokenize (stringLiteral "é𝄞") = .error r ∧
        r.toError (stringLiteral "é𝄞") = .script .invalidEscape ⟨7, 1, 7⟩ := by
  have hbasic : IsBasicText "it's é" := by decide
  have hlength : byteLength (stringLiteral "it's é").toList = 14 := by decide
  obtain ⟨_, _, r, -, rfl, hr, hplace⟩ := (stringLiteral_read_back "é𝄞").2 ['é'] '𝄞' [] (by decide)
    (by decide) (by decide)
  exact ⟨hbasic, hlength ▸ (stringLiteral_read_back "it's é").1 hbasic, r, hr, hplace⟩

end TwinView.Client
