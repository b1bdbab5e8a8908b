import TwinView.Client.Source
import TwinView.Proofs.Client.Escapes
import TwinView.Proofs.Script.Literals
import TwinView.Proofs.Script.Splicing

/-!
The lexemes of what client text is made up of: line breaks and comments have none, and a string literal
is one token, whose value is the text that was written.
-/

namespace TwinView.Client

open Text Script

variable {c : Char} {cs rest : List Char} {start here n : Nat} {P : List Char → Prop}

def isBasic (c : Char) : Bool := c.toNat < 0x10000

def IsBasicText (value : String) : Prop := ∀ c ∈ value.toList, isBasic c

instance (value : String) : Decidable (IsBasicText value) :=
  inferInstanceAs (Decidable (∀ c ∈ value.toList, isBasic c))

theorem charOf?_toNat (c : Char) : charOf? c.toNat = some c := by
  have hvalid : c.toNat.isValidChar := c.valid
  simp [charOf?, hvalid]

theorem hexEscape?_upperHex (h : n < 16 ^ 4) (rest : List Char) :
    hexEscape? 4 (upperHex 4 n ++ rest) = charOf? n := by
  have htake : (upperHex 4 n ++ rest).take 4 = upperHex 4 n := List.take_left' (length_upperHex 4 n)
  rw [hexEscape?, htake, length_upperHex, all_upperHex, hexNumber_upperHex h]
  rfl

/-- An escape of four digits, up to the character that they stand for. -/
theorem escape?_upperHex (h : n < 16 ^ 4) (rest : List Char) :
    escape? ('u' :: upperHex 4 n ++ rest) =
      match charOf? n with
      | some c => .ok ([c], 5)
      | none => .error .invalidEscape := by
  have hletter : letterEscapes.lookup 'u' = none := by decide
  rw [List.cons_append, escape?, hletter]
  dsimp only
  rw [if_neg (by decide), if_pos rfl]
  cases hchar : charOf? n <;> simp only [hexEscape?_upperHex h, hchar]

theorem scanText_skip (quote : Char) (start here : Nat) (cs rest : List Char) :
    scanText quote start cs.length here (cs ++ rest) =
      scanText quote start 0 (here + byteLength cs) rest := by
  induction cs generalizing here with
  | nil => rfl
  | cons c cs ih =>
      rw [byteLength, ← Nat.add_assoc]
      exact ih _

theorem scanText_escape {quote : Char} (escape : List Char) (hquote : quote ≠ '\\')
    (h : escape? (escape ++ rest) = .ok ([c], escape.length)) :
    scanText quote start 0 here ('\\' :: escape ++ rest) =
      (scanText quote start 0 (here + byteLength ('\\' :: escape)) rest).map
        fun (value, r) => (c :: value, r) := by
  rw [List.cons_append, scanText, if_neg (by decide), if_neg hquote.symm, if_pos rfl, h]
  dsimp only
  rw [scanText_skip, byteLength, utf8Size_of_le (by decide), Nat.add_assoc]
  cases scanText quote start 0 (here + (1 + byteLength escape)) rest <;> rfl

theorem not_isLineBreak_of_isPrintable (h : isPrintable c) : isLineBreak c = false := by
  rw [Bool.eq_false_iff]
  intro hbreak
  simp only [isLineBreak, Bool.or_eq_true, decide_eq_true_eq] at hbreak
  obtain ((rfl | rfl) | rfl) | rfl := hbreak <;> exact absurd h (by decide)

/-- Each character of a text is read back from how it is written. -/
theorem scanText_escapeChar (start here : Nat) (h : isBasic c) (rest : List Char) :
    scanText '\'' start 0 here (escapeChar .script c ++ rest) =
      (scanText '\'' start 0 (here + byteLength (escapeChar .script c)) rest).map
        fun (value, r) => (c :: value, r) := by
  obtain ⟨hprintable, hquote, hslash, hescape⟩ | ⟨k, hk, hescape⟩ | ⟨-, hescape⟩ := escapeChar_spec .script c
  · rw [quote_script] at hquote
    rw [hescape, List.singleton_append, scanText,
      if_neg (by simp [not_isLineBreak_of_isPrintable hprintable]), if_neg hquote, if_neg hslash]
    show _ = (scanText '\'' start 0 (here + c.utf8Size) rest).map _
    cases scanText '\'' start 0 (here + c.utf8Size) rest <;> rfl
  · have hletters : ∀ p ∈ shortEscapes .script, escape? (p.1 :: rest) = .ok ([p.2], 1) := by
      simp [shortEscapes, quote_script, escape?, letterEscapes, List.lookup_cons, isLineBreak]
    rw [hescape]
    exact scanText_escape [k] (by decide) (hletters _ hk)
  · have hunits : unitEscapes c = '\\' :: ('u' :: upperHex 4 c.toNat) := by
      rw [unitEscapes, utf16Units, if_pos (of_decide_eq_true h)]
      simp
    have hlength : ('u' :: upperHex 4 c.toNat).length = 5 := by rw [List.length_cons, length_upperHex]
    rw [hescape, hunits]
    refine scanText_escape _ (by decide) ?_
    rw [escape?_upperHex (of_decide_eq_true h), charOf?_toNat, hlength]

/-- So is a text, whatever comes behind it. -/
theorem scanText_escaped (start here : Nat) (h : ∀ c ∈ cs, isBasic c) (rest : List Char) :
    scanText '\'' start 0 here (cs.flatMap (escapeChar .script) ++ rest) =
      (scanText '\'' start 0 (here + byteLength (cs.flatMap (escapeChar .script))) rest).map
        fun (value, r) => (cs ++ value, r) := by
  induction cs generalizing here with
  | nil =>
      show scanText '\'' start 0 here rest = (scanText '\'' start 0 here rest).map _
      cases scanText '\'' start 0 here rest <;> rfl
  | cons c cs ih =>
      obtain ⟨hc, hcs⟩ := List.forall_mem_cons.1 h
      rw [List.flatMap_cons, List.append_assoc, scanText_escapeChar start here hc, ih _ hcs, byteLength_append,
        Nat.add_assoc]
      cases scanText '\'' start 0 _ rest <;> rfl

theorem scanText_quoted (start here : Nat) (rest : List Char) (h : ∀ c ∈ cs, isBasic c) :
    scanText '\'' start 0 here (cs.flatMap (escapeChar .script) ++ '\'' :: rest) =
      .ok (cs, ⟨here + byteLength (cs.flatMap (escapeChar .script)) + 1, rest⟩) := by
  rw [scanText_escaped start here h, scanText, if_neg (by decide), if_pos rfl]
  show Except.ok (cs ++ [], _) = _
  rw [List.append_nil]

theorem scanToken_quote (start : Nat) (cs : List Char) : scanToken start '\'' cs =
    (scanText '\'' start 0 (start + 1) cs).map fun (value, r) =>
      (⟨start, r.offset, .text (String.ofList value)⟩, r) := by
  have htoken : scanToken start '\'' cs = (scanText '\'' start 0 (start + 1) cs >>= fun p =>
      .ok (⟨start, p.2.offset, .text (String.ofList p.1)⟩, p.2)) := rfl
  rw [htoken]
  cases scanText '\'' start 0 (start + 1) cs <;> rfl

theorem lexed_stringLiteral {value : String} (h : ∀ c ∈ value.toList, isBasic c) :
    Lexed Anywhere (stringLiteral value).toList [.text value] := by
  rw [toList_stringLiteral]
  refine lexed_token rfl (by decide) fun start rest _ => ?_
  rw [scanToken_quote, List.append_assoc, List.singleton_append, scanText_quoted start (start + 1) rest h]
  exact ⟨_, _, rfl, congrArg Lexeme.text String.ofList_toList, rfl⟩

theorem not_infix_replaceFrom (skip : Nat) (cs : List Char) :
    ¬ ['*', '/'] <:+: replaceFrom ['*', '/'] ['*', '\\', '/'] skip cs ++ ['*'] := by
  induction cs generalizing skip with
  | nil => simp [replaceFrom, List.infix_cons_iff]
  | cons c cs ih =>
      cases skip with
      | succ skip => exact ih skip
      | zero =>
          rw [replaceFrom]
          split
          · simpa [List.infix_cons_iff] using ih 1
          · next hprefix =>
              rw [List.cons_append, List.infix_cons_iff, not_or]
              refine ⟨fun hp => hprefix ?_, ih 0⟩
              -- what follows begins with a slash only if it did so before
              cases cs with
              | nil => simp [replaceFrom] at hp
              | cons d cs =>
                  rw [replaceFrom] at hp
                  split at hp
                  · simp at hp
                  · simpa using hp

theorem lexed_blockComment (value : String) : Lexed P (blockComment value).toList [] := by
  have htext : (blockComment value).toList = '/' :: '*' ::
      (replaceFrom ['*', '/'] ['*', '\\', '/'] 0 value.toList ++ ['*', '/']) := by
    simp [blockComment, replaceAll]
  rw [htext]
  exact lexed_comment (not_infix_replaceFrom 0 _)

abbrev Lexes (P : List Char → Prop) (text : String) (ls : List Lexeme) : Prop := Lexed P text.toList ls

namespace Lexes

variable {text text' : String} {ls ls' : List Lexeme} {Q : List Char → Prop}

theorem append (h : Lexes P text ls) (h' : Lexes Q text' ls')
    (hP : ∀ rest, Q rest → P (text'.toList ++ rest)) : Lexes Q (text ++ text') (ls ++ ls') := by
  rw [Lexes, String.toList_append]
  exact Lexed.append h h' hP

theorem before (h : Lexes Anywhere text ls) (h' : Lexes Q text' ls') :
    Lexes Q (text ++ text') (ls ++ ls') :=
  h.append h' fun _ _ => True.intro

end Lexes

theorem lexes_intercalate {gap first : String} {written : List String} {ls : List Lexeme}
    {lss : List (List Lexeme)} (hgap : ∀ c ∈ gap.toList, isGap c) (hfirst : Lexes Apart first ls)
    (h : List.Forall₂ (Lexes Apart) written lss) :
    Lexes Apart (",".intercalate ((first :: written).map (gap ++ ·))) (ls ++ further lss) := by
  have hblank : Lexes Anywhere gap [] := lexed_gap hgap
  induction h generalizing first ls with
  | nil =>
      rw [List.map_singleton, String.intercalate_singleton, further, List.flatMap_nil, List.append_nil]
      exact hblank.before hfirst
  | cons hsecond _ ih =>
      have hmore := ih hsecond
      rw [List.map_cons] at hmore ⊢
      rw [List.map_cons, String.intercalate_cons_cons, String.append_assoc]
      have hcomma : Lexes Apart ("," ++ _) _ := Lexes.before (lexed_mark (by decide)) hmore
      refine Lexes.append (hblank.before hfirst) hcomma fun rest _ => ?_
      rw [String.toList_append]
      exact apart_cons (c := ',') (by decide) _

/-- Line breaks and indentation are made of these characters. -/
def Layout.IsMadeOf (p : Char → Bool) (l : Layout) : Prop := ∀ c ∈ l.newline.toList ++ l.indent.toList, p c

instance (p : Char → Bool) (l : Layout) : Decidable (l.IsMadeOf p) :=
  inferInstanceAs (Decidable (∀ c ∈ l.newline.toList ++ l.indent.toList, p c))

theorem Layout.IsMadeOf.line {p : Char → Bool} {l : Layout} (h : l.IsMadeOf p) (depth : Nat) :
    ∀ c ∈ (l.line depth).toList, p c := by
  intro c hc
  simp only [Layout.line, repeated, String.toList_append, String.toList_join, List.mem_append,
    List.mem_flatMap, List.mem_replicate] at hc
  obtain hc | ⟨_, ⟨-, rfl⟩, hc⟩ := hc
  · exact h c (List.mem_append_left _ hc)
  · exact h c (List.mem_append_right _ hc)

/-- Line breaks and indentation are blanks of client code. -/
structure BlankLayout (s : Settings) : Prop where
  newline : ∀ c ∈ s.newline.toList, isGap c
  indent : ∀ c ∈ s.indent.toList, isGap c

variable {s : Settings}

theorem isGap_line (h : BlankLayout s) (depth : Nat) : ∀ c ∈ (line s depth).toList, isGap c := by
  have hlayout : (layoutOf s).IsMadeOf isGap := List.forall_mem_append.2 ⟨h.newline, h.indent⟩
  exact hlayout.line depth

theorem lexes_line (h : BlankLayout s) (depth : Nat) : Lexes P (line s depth) [] :=
  lexed_gap (isGap_line h depth)

theorem not_isNamePart_of_isGap (h : isGap c) : isNamePart c = false := by
  rw [isNamePart, isNameStart_of_isGap h, Bool.false_or]
  simp only [isGap, isSpace, isLineBreak, Bool.or_eq_true, decide_eq_true_eq] at h
  obtain (((((rfl | rfl) | rfl) | rfl) | rfl) | rfl) | ((rfl | rfl) | rfl) | rfl := h <;> decide

/-- Blanks, and a character that is no part of a name, end a name. -/
theorem apart_gap {cs : List Char} (h : ∀ c ∈ cs, isGap c) (hc : isNamePart c = false) (rest : List Char) :
    Apart (cs ++ c :: rest) := by
  cases cs with
  | nil => exact apart_cons hc rest
  | cons d cs => exact apart_cons (not_isNamePart_of_isGap (h d List.mem_cons_self)) _

/-- Items between brackets, with blanks in front of each and behind the last one. -/
theorem lexes_bracketed {gap gap' first : String} {written : List String} {ls : List Lexeme}
    {lss : List (List Lexeme)} {d : Char} (hc : c ∈ marks) (hd : d ∈ marks) (hgap : ∀ c ∈ gap.toList, isGap c)
    (hgap' : ∀ c ∈ gap'.toList, isGap c) (hfirst : Lexes Apart first ls)
    (hwritten : List.Forall₂ (Lexes Apart) written lss) :
    Lexes Anywhere (String.singleton c ++
        (",".intercalate ((first :: written).map (gap ++ ·)) ++ (gap' ++ String.singleton d)))
      (.mark c :: (ls ++ (further lss ++ [.mark d]))) := by
  have hopen : Lexes Anywhere (String.singleton c) [.mark c] := by
    rw [Lexes, String.toList_singleton]
    exact lexed_mark hc
  have hclose : Lexes Anywhere (gap' ++ String.singleton d) [.mark d] := by
    rw [Lexes, String.toList_append, String.toList_singleton]
    exact (lexed_gap hgap').before (lexed_mark hd)
  have hend : isNamePart d = false := by
    rw [isNamePart, (marks_spec d hd).1, (marks_spec d hd).2.1, Bool.or_false]
  have hitems := (lexes_intercalate hgap hfirst hwritten).append hclose fun rest _ => by
    rw [String.toList_append, String.toList_singleton, List.append_assoc]
    exact apart_gap hgap' hend rest
  simpa using hopen.before hitems

end TwinView.Client
