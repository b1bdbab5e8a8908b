import Mathlib.Tactic.SplitIfs
import TwinView.Proofs.Script.Tiling

/-!
Lexing a text piece by piece. A piece has its lexemes wherever it stands, as long as what follows does
not go on with its last token; so the lexemes of a text are those of its pieces, one after the other.
-/

namespace TwinView.Script

open Text

variable {here : Nat} {cs cs' rest : List Char} {ls ls' : List Lexeme} {P Q : List Char → Prop}

/-- What is said of the characters of a list is decided on the list, not on every character there is. -/
instance decidableForallMem (p : Char → Prop) [DecidablePred p] (cs : List Char) :
    Decidable (∀ c ∈ cs, p c) :=
  List.decidableBAll p cs

/-- In any place, in front of what satisfies `P`, the text is cut into these lexemes. -/
def Lexed (P : List Char → Prop) (cs : List Char) (ls : List Lexeme) : Prop :=
  ∀ here rest outcome, P rest → Scans (here + byteLength cs) rest outcome →
    ∃ ts, ts.map (·.lexeme) = ls ∧ Scans here (cs ++ rest) (outcome.map (ts ++ ·))

abbrev Anywhere (_ : List Char) : Prop := True

def Apart (rest : List Char) : Prop := rest.head?.any isNamePart = false

theorem apart_cons {c : Char} (h : isNamePart c = false) (rest : List Char) : Apart (c :: rest) := h

namespace Lexed

theorem nil : Lexed P [] [] := by
  intro here rest outcome _ h
  refine ⟨[], rfl, ?_⟩
  cases outcome <;> exact h

theorem mono (h : Lexed P cs ls) (hP : ∀ rest, Q rest → P rest) : Lexed Q cs ls :=
  fun here rest outcome hQ => h here rest outcome (hP rest hQ)

theorem append (h : Lexed P cs ls) (h' : Lexed Q cs' ls') (hP : ∀ rest, Q rest → P (cs' ++ rest)) :
    Lexed Q (cs ++ cs') (ls ++ ls') := by
  intro here rest outcome hQ hrest
  rw [byteLength_append, ← Nat.add_assoc] at hrest
  obtain ⟨ts', rfl, hs'⟩ := h' _ rest outcome hQ hrest
  obtain ⟨ts, rfl, hs⟩ := h here (cs' ++ rest) _ (hP rest hQ) hs'
  refine ⟨ts ++ ts', List.map_append, ?_⟩
  rw [List.append_assoc]
  have hmap : (outcome.map (ts' ++ ·)).map (ts ++ ·) = outcome.map (ts ++ ts' ++ ·) := by
    cases outcome <;> simp [Except.map]
  rwa [hmap] at hs

theorem anywhere (h : Lexed Anywhere cs ls) : Lexed P cs ls := h.mono fun _ _ => True.intro

theorem before (h : Lexed Anywhere cs ls) (h' : Lexed Q cs' ls') : Lexed Q (cs ++ cs') (ls ++ ls') :=
  h.append h' fun _ _ => True.intro

end Lexed

theorem tokenize_of_lexed {text : String} (h : Lexed Anywhere text.toList ls) :
    ∃ ts, tokenize text = .ok ts ∧ ts.map (·.lexeme) = ls := by
  obtain ⟨ts, hls, hs⟩ := h 0 [] (.ok []) True.intro (.done (by unfold skip; rfl))
  refine ⟨ts, ?_, hls⟩
  have hscans := scans_tokenize text
  rw [List.append_nil] at hs
  simpa [Except.map] using hscans.unique hs

theorem Scans.of_skip {here' : Nat} {outcome : Except Refusal (List Token)}
    (h : skip .blanks here cs = skip .blanks here' cs') (hs : Scans here' cs' outcome) :
    Scans here cs outcome := by
  cases hs with
  | badGap hg => exact .badGap (h.trans hg)
  | badToken hg ht => exact .badToken (h.trans hg) ht
  | done hg => exact .done (h.trans hg)
  | token hg ht hr => exact .token (h.trans hg) ht hr

theorem lexed_of_skip (h : ∀ here rest, skip .blanks here (cs ++ rest) =
    skip .blanks (here + byteLength cs) rest) : Lexed P cs [] := by
  intro here rest outcome _ hs
  refine ⟨[], rfl, .of_skip (h here rest) ?_⟩
  cases outcome <;> exact hs

def isGap (c : Char) : Bool := isSpace c || isLineBreak c

theorem skip_gap {c : Char} (h : isGap c) (here : Nat) (rest : List Char) :
    skip .blanks here (c :: rest) = skip .blanks (here + c.utf8Size) rest := by
  exact (skip.eq_def _ _ _).trans (if_pos h)

theorem lexed_gap (h : ∀ c ∈ cs, isGap c) : Lexed P cs [] := by
  refine lexed_of_skip fun here rest => ?_
  induction cs generalizing here with
  | nil => rfl
  | cons c cs ih =>
      obtain ⟨hc, hcs⟩ := List.forall_mem_cons.1 h
      rw [List.cons_append, skip_gap hc, ih hcs, byteLength, Nat.add_assoc]

theorem skip_slash {d : Char} (hline : d ≠ '/') (hblock : d ≠ '*') (here : Nat) (rest : List Char) :
    skip .blanks here ('/' :: d :: rest) = .ok ⟨here, '/' :: d :: rest⟩ := by
  refine (skip.eq_def _ _ _).trans ?_
  dsimp only
  rw [if_neg (by decide), if_pos rfl]
  split
  · next hd => cases hd; exact absurd rfl hline
  · next hd => cases hd; exact absurd rfl hblock
  · rfl

theorem skip_inComment {start : Nat} {c : Char} (h : c = '*' → cs.head? ≠ some '/') (here : Nat) :
    skip (.blockComment start) here (c :: cs) = skip (.blockComment start) (here + c.utf8Size) cs := by
  refine (skip.eq_def _ _ _).trans ?_
  dsimp only
  split_ifs with hc
  · subst hc
    split
    · exact absurd rfl (h rfl)
    · rfl
  · rfl

theorem skip_blockComment {start : Nat} {body : List Char} (h : ¬ ['*', '/'] <:+: body ++ ['*'])
    (here : Nat) (rest : List Char) :
    skip (.blockComment start) here (body ++ '*' :: '/' :: rest) =
      skip .blanks (here + (byteLength body + 2)) rest := by
  induction body generalizing here with
  | nil =>
      rw [List.nil_append, byteLength, Nat.zero_add]
      rfl
  | cons c body ih =>
      have hbody : ¬ ['*', '/'] <:+: body ++ ['*'] := fun hi => h (List.infix_cons hi)
      have hfirst : c = '*' → (body ++ '*' :: '/' :: rest).head? ≠ some '/' := by
        rintro rfl hhead
        cases body with
        | nil => cases hhead
        | cons d body =>
            cases hhead
            exact h ⟨[], body ++ ['*'], rfl⟩
      rw [List.cons_append, skip_inComment hfirst, ih hbody, byteLength]
      congr 1
      omega

theorem lexed_comment {body : List Char} (h : ¬ ['*', '/'] <:+: body ++ ['*']) :
    Lexed P ('/' :: '*' :: (body ++ ['*', '/'])) [] := by
  refine lexed_of_skip fun here rest => ?_
  have hslash : '/'.utf8Size = 1 := rfl
  have hstar : '*'.utf8Size = 1 := rfl
  have hlength : byteLength ('/' :: '*' :: (body ++ ['*', '/'])) = 2 + (byteLength body + 2) := by
    simp only [byteLength, byteLength_append, hslash, hstar]
    omega
  rw [hlength]
  simp only [List.cons_append, List.append_assoc, List.nil_append]
  refine (skip.eq_def _ _ _).trans ?_
  dsimp only
  rw [if_neg (by decide), if_pos rfl, ← Nat.add_assoc]
  exact skip_blockComment h _ _

theorem skip_token {c : Char} (hgap : isGap c = false) (hslash : c ≠ '/') (here : Nat) (rest : List Char) :
    skip .blanks here (c :: rest) = .ok ⟨here, c :: rest⟩ := by
  refine (skip.eq_def _ _ _).trans ?_
  dsimp only
  rw [← isGap, hgap, if_neg Bool.false_ne_true, if_neg hslash]

/-- A text that the scanner takes for one token, whatever the offset. -/
theorem lexed_token {c : Char} {l : Lexeme} (hgap : isGap c = false) (hslash : c ≠ '/')
    (h : ∀ start rest, P rest →
      ∃ t r, scanToken start c (cs ++ rest) = .ok (t, r) ∧ t.lexeme = l ∧ r.chars = rest) :
    Lexed P (c :: cs) [l] := by
  intro here rest outcome hP hrest
  obtain ⟨t, r, hscan, rfl, rfl⟩ := h here rest hP
  obtain ⟨-, -, slice, -, htakes, -⟩ := scanned_scanToken hscan
  have hslice : c :: cs = slice := List.append_cancel_right htakes.chars
  refine ⟨[t], rfl, .token (skip_token hgap hslash here _) hscan ?_⟩
  rwa [htakes.offset, ← hslice]

theorem isNameStart_of_isGap {c : Char} (h : isGap c) : isNameStart c = false := by
  have hgaps : ∀ c ∈ [' ', '\t', '\x0B', '\x0C', '\u00A0', '\uFEFF', '\n', '\r', '\u2028', '\u2029'],
      isNameStart c = false := by decide +kernel
  refine hgaps c ?_
  simpa [isGap, isSpace, isLineBreak, or_assoc] using h

theorem takeWhile_front {p : Char → Bool} (h : ∀ c ∈ cs, p c) (hrest : rest.head?.any p = false) :
    (cs ++ rest).takeWhile p = cs := by
  rw [List.takeWhile_append_of_pos h]
  cases rest with
  | nil => simp
  | cons d rest => simp [show p d = false from hrest]

theorem dropWhile_front {p : Char → Bool} (h : ∀ c ∈ cs, p c) (hrest : rest.head?.any p = false) :
    (cs ++ rest).dropWhile p = rest := by
  rw [List.dropWhile_append_of_pos h]
  cases rest with
  | nil => rfl
  | cons d rest => simp [show p d = false from hrest]

def wordLexeme (word : String) : Lexeme := if isKeyword word then .keyword word else .name word

theorem lexed_word (word : String) (hstart : word.toList.head?.any isNameStart)
    (hparts : word.toList.all isNamePart) : Lexed Apart word.toList [wordLexeme word] := by
  obtain ⟨c, cs, hword⟩ : ∃ c cs, word.toList = c :: cs := by
    cases h : word.toList with
    | nil => simp [h] at hstart
    | cons c cs => exact ⟨c, cs, rfl⟩
  have hname : String.ofList (c :: cs) = word := by rw [← hword, String.ofList_toList]
  rw [hword] at hstart hparts ⊢
  have hc : isNameStart c := by simpa using hstart
  refine lexed_token (Bool.eq_false_iff.2 fun hgap => ?_) (fun hslash => ?_) fun start rest hrest => ?_
  · rw [isNameStart_of_isGap hgap] at hc
    cases hc
  · subst hslash
    exact absurd hc (by decide)
  · have htake := takeWhile_front (List.all_eq_true.1 hparts) hrest
    have hdrop := dropWhile_front (List.all_eq_true.1 hparts) hrest
    refine ⟨_, _, by rw [scanToken, if_pos hc], ?_, hdrop⟩
    rw [List.cons_append] at htake
    simp only [scanName, htake, hname]
    rfl

theorem marks_spec : ∀ c ∈ marks, isNameStart c = false ∧ isDigit c = false ∧ isGap c = false ∧
    c ≠ '.' ∧ c ≠ '/' := by
  decide

theorem scanToken_mark {c : Char} (h : c ∈ marks) (start : Nat) (rest : List Char) :
    scanToken start c rest = .ok (⟨start, start + 1, .mark c⟩, ⟨start + 1, rest⟩) := by
  obtain ⟨hname, hdigit, -, hdot, -⟩ := marks_spec c h
  simp [scanToken, hname, hdigit, hdot, h]

theorem lexed_mark {c : Char} (h : c ∈ marks) : Lexed Anywhere [c] [.mark c] := by
  obtain ⟨-, -, hgap, -, hslash⟩ := marks_spec c h
  exact lexed_token hgap hslash fun start rest _ => ⟨_, _, scanToken_mark h start rest, rfl, rfl⟩

/-- A point is a mark unless a digit follows. -/
theorem lexed_dot : Lexed (fun rest => rest.head?.any isDigit = false) ['.'] [.mark '.'] := by
  refine lexed_token rfl (by decide) fun start rest hrest =>
    ⟨⟨start, start + 1, .mark '.'⟩, ⟨start + 1, rest⟩, ?_, rfl, rfl⟩
  have hname : isNameStart '.' = false := by decide
  have hdigit : isDigit '.' = false := by decide
  simp [scanToken, hname, hdigit, hrest]

theorem find_assign (h : rest.head? ≠ some '=') :
    operators.find? (fun op => op.toList.isPrefixOf ('=' :: rest)) = some "=" := by
  cases rest with
  | nil => rfl
  | cons d rest =>
      have hd : ('=' == d) = false := beq_eq_false_iff_ne.2 fun hd => h (congrArg some hd.symm)
      simp [operators, List.find?, List.isPrefixOf, hd]

theorem lexed_assign : Lexed (fun rest => rest.head? ≠ some '=') ['='] [.operator "="] := by
  refine lexed_token rfl (by decide) fun start rest hrest =>
    ⟨⟨start, start + 1, .operator "="⟩, ⟨start + 1, rest⟩, ?_, rfl, rfl⟩
  have hscan : scanToken start '=' rest = scanOperator start '=' ('=' :: rest) := rfl
  rw [List.nil_append, hscan, scanOperator, find_assign hrest]
  rfl

theorem lexed_or : Lexed Anywhere ['|', '|'] [.operator "||"] :=
  lexed_token rfl (by decide) fun _ _ _ => ⟨_, _, rfl, rfl, rfl⟩

end TwinView.Script
