import TwinView.Proofs.Script.Lexing
import TwinView.Template.CodeBlock

/-!
Names and words. The scanner cuts a fragment into names, and the search for the bound names goes by
words, which have other characters. Still the search finds every name: what may stand beside one, the
end of a gap, a mark, an operator or a quote, is no word character.
-/

namespace TwinView

namespace Text

variable {word before after cs : List Char} {inside : Bool}

theorem inRanges_of_lt {ranges : List (Nat × Nat)} {n : Nat} {c : Char} (h : ∀ r ∈ ranges, n < r.1)
    (hc : c.toNat ≤ n) : inRanges ranges c = false := by
  refine List.any_eq_false.2 fun r hr => ?_
  have := h r hr
  simp only [Bool.and_eq_true, decide_eq_true_eq]
  omega

theorem isWordChar_of_le {c : Char} (h : c ≤ '\x7F') :
    isWordChar c = (c.isAlpha || inRanges [(0x30, 0x39), (0x5F, 0x5F)] c) := by
  have hc : c.toNat ≤ 0x7F := h
  have halphabetic : inRanges alphabeticRanges c = false := inRanges_of_lt (by decide +kernel) hc
  have hnewer : inRanges newerRanges c = false := inRanges_of_lt (by decide) hc
  have hword : inRanges (wordOnlyRanges.drop 2) c = false := inRanges_of_lt (by decide +kernel) hc
  have hsplit : inRanges wordOnlyRanges c =
      (inRanges [(0x30, 0x39), (0x5F, 0x5F)] c || inRanges (wordOnlyRanges.drop 2) c) :=
    @List.any_append _ _ [(0x30, 0x39), (0x5F, 0x5F)] (wordOnlyRanges.drop 2)
  rw [isWordChar, isAlphabetic, hsplit, halphabetic, hnewer, hword]
  simp

def EndsApart (cs : List Char) : Prop := cs.getLast?.all fun c => !isWordChar c

def BeginsApart (cs : List Char) : Prop := cs.head?.all fun c => !isWordChar c

theorem EndsApart.nil : EndsApart [] := rfl

theorem endsApart_concat {c : Char} : EndsApart (cs ++ [c]) ↔ isWordChar c = false := by
  simp [EndsApart]

theorem endsApart_append {cs' : List Char} (h : cs' ≠ []) : EndsApart (cs ++ cs') ↔ EndsApart cs' := by
  obtain ⟨front, c, rfl⟩ := List.eq_nil_or_concat cs' |>.resolve_left h
  rw [List.concat_eq_append, ← List.append_assoc, endsApart_concat, endsApart_concat]

theorem EndsApart.append {cs' : List Char} (h' : EndsApart cs') (h : cs' = [] → EndsApart cs) :
    EndsApart (cs ++ cs') := by
  by_cases hne : cs' = []
  · rw [hne, List.append_nil]
    exact h hne
  · exact (endsApart_append hne).2 h'

theorem endsApart_cons {c : Char} : EndsApart (c :: cs) ↔
    (cs = [] → isWordChar c = false) ∧ EndsApart cs := by
  have hone : EndsApart [c] ↔ isWordChar c = false := @endsApart_concat [] c
  by_cases hne : cs = []
  · subst hne
    simp [hone, EndsApart.nil]
  · rw [← List.singleton_append, endsApart_append hne]
    exact ⟨fun h => ⟨fun hnil => absurd hnil hne, h⟩, And.right⟩

theorem startsWithWord_iff : startsWithWord word cs = true ↔ ∃ after, cs = word ++ after ∧
    BeginsApart after := by
  simp only [startsWithWord, Bool.and_eq_true, List.isPrefixOf_iff_prefix]
  constructor
  · rintro ⟨⟨after, rfl⟩, h⟩
    rw [List.drop_left] at h
    exact ⟨after, rfl, h⟩
  · rintro ⟨after, rfl, h⟩
    rw [List.drop_left]
    exact ⟨List.prefix_append word after, h⟩

/-- The search finds a word just where it stands between characters of no word. -/
theorem mentionsFrom_iff (hword : word ≠ []) : mentionsFrom word inside cs = true ↔
    ∃ before after, cs = before ++ (word ++ after) ∧ (before = [] → inside = false) ∧
      EndsApart before ∧ BeginsApart after := by
  induction cs generalizing inside with
  | nil =>
      constructor
      · intro h
        cases h
      · rintro ⟨before, after, h, -⟩
        simp [hword] at h
  | cons c cs ih =>
      rw [mentionsFrom, Bool.or_eq_true, Bool.and_eq_true, startsWithWord_iff, ih]
      constructor
      · rintro (⟨hin, after, hcs, ha⟩ | ⟨before, after, rfl, hc, hb, ha⟩)
        · exact ⟨[], after, hcs, fun _ => by simpa using hin, .nil, ha⟩
        · exact ⟨c :: before, after, rfl, nofun, endsApart_cons.2 ⟨hc, hb⟩, ha⟩
      · rintro ⟨before, after, hcs, hin, hb, ha⟩
        cases before with
        | nil => exact .inl ⟨by simpa using hin rfl, after, hcs, ha⟩
        | cons d before =>
            cases hcs
            obtain ⟨hc, hb⟩ := endsApart_cons.1 hb
            exact .inr ⟨before, after, rfl, hc, hb, ha⟩

theorem mentions_iff {name text : String} (hname : name ≠ "") : mentions name text = true ↔
    ∃ before after, text.toList = before ++ (name.toList ++ after) ∧ EndsApart before ∧
      BeginsApart after := by
  rw [mentions, mentionsFrom_iff (by simpa using hname)]
  exact exists_congr fun before => exists_congr fun after => and_congr_right fun _ => by simp

end Text

namespace Script

open Text

variable {here : Nat} {cs gap slice after rest : List Char} {t : Token} {ts : List Token}

/-- The characters that begin or end what is no name and no number. -/
def borders : List Char :=
  [' ', '\t', '\x0B', '\x0C', '\n', '\r', '/', '.', '\'', '"'] ++ marks ++
    operators.flatMap String.toList ++ ['\u00A0', '\uFEFF', '\u2028', '\u2029']

theorem not_isWordChar_of_mem_borders {c : Char} (h : c ∈ borders) : isWordChar c = false := by
  have hascii : ∀ c ∈ [' ', '\t', '\x0B', '\x0C', '\n', '\r', '/', '.', '\'', '"'] ++ marks ++
      operators.flatMap String.toList, c ≤ '\x7F' ∧
        (c.isAlpha || inRanges [(0x30, 0x39), (0x5F, 0x5F)] c) = false := by
    decide
  have hblank : ∀ c ∈ ['\u00A0', '\uFEFF', '\u2028', '\u2029'], isWordChar c = false := by
    decide +kernel
  rcases List.mem_append.1 h with h | h
  · rw [isWordChar_of_le (hascii c h).1]
    exact (hascii c h).2
  · exact hblank c h

theorem mem_borders_of_isGap {c : Char} (h : isGap c) : c ∈ borders := by
  have hgaps : ∀ c ∈ [' ', '\t', '\x0B', '\x0C', '\u00A0', '\uFEFF', '\n', '\r', '\u2028', '\u2029'],
      c ∈ borders := by decide
  refine hgaps c ?_
  simpa [isGap, isSpace, isLineBreak, or_assoc] using h

theorem mem_borders_of_operator {op : String} (h : op ∈ operators) : ∀ c ∈ op.toList, c ∈ borders :=
  fun _ hc => List.mem_append_left _ (List.mem_append_right _ (List.mem_flatMap.2 ⟨op, h, hc⟩))

theorem mem_borders_of_isQuote {c : Char} (h : isQuote c) : c ∈ borders := by
  rcases (by simpa [isQuote] using h : c = '\'' ∨ c = '"') with rfl | rfl <;> decide

theorem mem_borders_of_mark {c : Char} (h : c = '.' ∨ c ∈ marks) : c ∈ borders := by
  rcases h with rfl | h
  · decide
  · exact List.mem_append_left _ (List.mem_append_left _ (List.mem_append_right _ h))

theorem endsApart_concat_of_mem {c : Char} (h : c ∈ borders) : EndsApart (cs ++ [c]) :=
  endsApart_concat.2 (not_isWordChar_of_mem_borders h)

/-- A gap in front of a name ends with a blank or with the end of a comment. -/
theorem Gap.endsApart (h : Gap after gap) (hafter : after.head?.any isNameStart) : EndsApart gap := by
  induction h with
  | nil => exact .nil
  | @blank c gap hc _ ih =>
      have hend : EndsApart ([] ++ [c]) := endsApart_concat_of_mem (mem_borders_of_isGap hc)
      exact @EndsApart.append [c] gap ih fun _ => hend
  | @line text gap _ he _ ih =>
      refine @EndsApart.append ('/' :: '/' :: text) gap ih fun hgap => ?_
      -- a comment that is not ended by a line break has nothing behind it
      subst hgap
      cases after with
      | nil => cases hafter
      | cons c after =>
          have hbreak : isGap c := by simp_all [isGap]
          have hstart : isNameStart c := by simpa using hafter
          rw [isNameStart_of_isGap hbreak] at hstart
          cases hstart
  | @block text gap _ _ ih =>
      have hend : EndsApart (('/' :: '*' :: (text ++ ['*'])) ++ ['/']) :=
        endsApart_concat_of_mem (by decide)
      have happend := ih.append fun _ => hend
      simpa using happend

/-- What is spelled directly in front of a name, if it is no number. -/
theorem Spells.endsApart {l : Lexeme} (h : Spells l slice after) (hafter : after.head?.any isNameStart)
    (hnumber : ∀ x, l ≠ .number x) : EndsApart slice := by
  have hword {s : String} (hw : IsWord s slice after) : EndsApart slice := by
    have hstop := hw.2.2.2
    cases after with
    | nil => cases hafter
    | cons c after =>
        have hstart : isNameStart c := by simpa using hafter
        simp [isNamePart, hstart] at hstop
  cases l with
  | mark c =>
      obtain ⟨rfl, hc⟩ := h
      exact @endsApart_concat_of_mem [] c (mem_borders_of_mark hc)
  | name s => exact hword h.1
  | keyword s => exact hword h.1
  | operator s =>
      obtain ⟨rfl, hop, -⟩ := h
      rcases List.eq_nil_or_concat s.toList with hs | ⟨front, c, hs⟩
      · rw [hs]
        exact .nil
      · have hc := mem_borders_of_operator hop c (by simp [hs])
        rw [hs, List.concat_eq_append]
        exact endsApart_concat_of_mem hc
  | text value =>
      obtain ⟨quote, inner, hq, rfl⟩ := h
      exact @endsApart_concat_of_mem (quote :: inner) quote (mem_borders_of_isQuote hq)
  | number x => exact absurd rfl (hnumber x)

theorem Tiles.beginsApart (h : Tiles here cs ts) (hpart : cs.head?.any isNamePart = false) :
    BeginsApart cs := by
  have hborder {c : Char} {cs : List Char} (hc : c ∈ borders) : BeginsApart (c :: cs) := by
    simp [BeginsApart, not_isWordChar_of_mem_borders hc]
  have hgap {after gap rest : List Char} (hg : Gap after gap) (hne : gap ≠ []) :
      BeginsApart (gap ++ rest) := by
    cases hg with
    | nil => exact absurd rfl hne
    | blank hc _ => exact hborder (mem_borders_of_isGap hc)
    | line _ _ _ => exact hborder (by decide)
    | block _ _ => exact hborder (by decide)
  cases h with
  | done hg =>
      by_cases hne : cs = []
      · rw [hne]
        rfl
      · have happend := @hgap [] cs [] hg hne
        rwa [List.append_nil] at happend
  | @token _ gap slice rest t ts hg hs _ _ hl _ =>
      by_cases hne : gap = []
      · subst hne
        rw [List.nil_append] at hpart ⊢
        obtain ⟨c, slice, rfl⟩ := List.exists_cons_of_ne_nil hs
        have hpart : isNamePart c = false := hpart
        have hname : isNameStart c = false := by
          simp only [isNamePart, Bool.or_eq_false_iff] at hpart
          exact hpart.1
        have hword {s : String} (hw : IsWord s (c :: slice) rest) : c ∈ borders := by
          have hstart : isNameStart c := hw.2.1
          rw [hname] at hstart
          cases hstart
        refine hborder ?_
        cases hlex : t.lexeme with
        | mark d =>
            rw [hlex] at hl
            obtain ⟨hd, hmark⟩ := hl
            cases hd
            exact mem_borders_of_mark hmark
        | name s => exact hword (by rw [hlex] at hl; exact hl.1)
        | keyword s => exact hword (by rw [hlex] at hl; exact hl.1)
        | operator s =>
            rw [hlex] at hl
            exact mem_borders_of_operator hl.2.1 c (hl.1 ▸ List.mem_cons_self)
        | text value =>
            rw [hlex] at hl
            obtain ⟨quote, inner, hq, hslice⟩ := hl
            cases hslice
            exact mem_borders_of_isQuote hq
        | number x =>
            rw [hlex] at hl
            have hdigit : isDigit c = false := by
              simp only [isNamePart, Bool.or_eq_false_iff] at hpart
              exact hpart.2
            have hdot : c = '.' := by simpa [Spells, hdigit] using hl
            subst hdot
            decide
      · exact hgap hg hne

/-- No number stands directly in front of the token. -/
def NoNumberAt (ts : List Token) (i : Nat) : Prop := ∀ u ∈ ts, ∀ x, u.lexeme = .number x → u.stop ≠ i

theorem head?_any_append {p : Char → Bool} (h : cs.head?.any p) (cs' : List Char) :
    (cs ++ cs').head?.any p := by
  cases cs with
  | nil => cases h
  | cons c cs => exact h

theorem Tiles.apart {name : String} (h : Tiles here cs ts) (ht : t ∈ ts) (hname : t.lexeme = .name name)
    (hnumber : NoNumberAt ts t.start) :
    ∃ before after, cs = before ++ (name.toList ++ after) ∧ t.start = here + byteLength before ∧
      name.toList.head?.any isNameStart ∧ EndsApart before ∧ BeginsApart after := by
  induction h with
  | done => cases ht
  | @token here gap slice rest u ts hg hs hstart hstop hl hr ih =>
      rcases List.mem_cons.1 ht with rfl | ht
      · rw [hname] at hl
        obtain ⟨⟨rfl, hhead, -, hstopped⟩, -⟩ := hl
        refine ⟨gap, rest, rfl, hstart, hhead, hg.endsApart (head?_any_append hhead _), ?_⟩
        exact hr.beginsApart (by simpa using hstopped)
      · obtain ⟨before, after, rfl, hplace, hhead, hb, ha⟩ := ih ht fun v hv => hnumber v (List.mem_cons_of_mem _ hv)
        refine ⟨gap ++ (slice ++ before), after, by simp, ?_, hhead, ?_, ha⟩
        · rw [hplace, hstop, hstart, byteLength_append, byteLength_append]
          omega
        · rw [← List.append_assoc]
          refine hb.append fun hnil => ?_
          -- the token is directly behind the one in front, which therefore is no number
          subst hnil
          have hslice : EndsApart slice := by
            refine hl.endsApart ?_ fun x hx => hnumber u List.mem_cons_self x hx ?_
            · exact head?_any_append hhead _
            · rw [hplace]
              rfl
          exact hslice.append fun hnil => absurd hnil hs

theorem mentions_of_tokenize {source name : String} (h : tokenize source = .ok ts) (ht : t ∈ ts)
    (hname : t.lexeme = .name name) (hnumber : NoNumberAt ts t.start) :
    mentions name source = true := by
  obtain ⟨before, after, hs, -, hhead, hb, ha⟩ :=
    ((tokenize_tiles source).2 ts h).1.apart ht hname hnumber
  refine (mentions_iff ?_).2 ⟨before, after, hs, hb, ha⟩
  rintro rfl
  cases hhead

end Script

namespace CodeBlock

theorem lt_arityOf {mentioned : String → Bool} {names : List String} {i : Nat} {name : String}
    (hi : names[i]? = some name) (h : mentioned name = true) : i < arityOf mentioned names := by
  induction names generalizing i with
  | nil => cases hi
  | cons first rest ih =>
      cases i with
      | zero =>
          cases hi
          rw [arityOf]
          split
          · simp [h]
          · omega
      | succ i =>
          have := ih (i := i) hi
          rw [arityOf]
          split
          · omega
          · omega

theorem arityOf_le (mentioned : String → Bool) (names : List String) :
    arityOf mentioned names ≤ names.length := by
  induction names with
  | nil => exact Nat.le_refl 0
  | cons first rest ih =>
      rw [arityOf, List.length_cons]
      split
      · split <;> omega
      · omega

/-- A bound name that is a name of the fragment, and that no number abuts, is one of the parameters. -/
theorem lt_arity {b : CodeBlock} {ts : List Script.Token} {t : Script.Token} {i : Nat} {name : String}
    (h : Script.tokenize b.value = .ok ts) (hi : boundNames[i]? = some name) (ht : t ∈ ts)
    (hname : t.lexeme = .name name) (hnumber : Script.NoNumberAt ts t.start) : i < b.arity :=
  lt_arityOf hi (Script.mentions_of_tokenize h ht hname hnumber)

end CodeBlock

end TwinView
