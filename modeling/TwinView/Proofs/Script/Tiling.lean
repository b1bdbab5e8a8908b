import TwinView.Proofs.Outcome
import TwinView.Script.Token

/-!
How tokens lie in their text. Between them there are only blanks and comments, each token is spelled
by its slice of the text, and names and operators reach as far as they can. The scanner takes at least
one character for each token, so that it ends on every text.
-/

namespace TwinView.Script

open Text

variable {here start : Nat} {cs rest taken slice after : List Char} {t : Token} {r : Rest}

/-! Lengths in bytes. -/

theorem byteLength_append (cs cs' : List Char) :
    byteLength (cs ++ cs') = byteLength cs + byteLength cs' := by
  induction cs with
  | nil => simp [byteLength]
  | cons c rest ih => rw [List.cons_append, byteLength, byteLength, ih, Nat.add_assoc]

theorem byteLength_toList (s : String) : byteLength s.toList = s.utf8ByteSize := by
  have hchars (cs : List Char) : byteLength cs = (String.ofList cs).utf8ByteSize := by
    induction cs with
    | nil => rfl
    | cons c rest ih =>
        rw [← List.singleton_append, String.ofList_append, String.utf8ByteSize_append, ← ih,
          ← String.singleton_eq_ofList, String.utf8ByteSize_singleton]
        rfl
  rw [hchars, String.ofList_toList]

theorem byteLength_pos (h : cs ≠ []) : 0 < byteLength cs := by
  cases cs with
  | nil => exact absurd rfl h
  | cons c rest =>
      have := c.utf8Size_pos
      rw [byteLength]
      omega

/-- Of two beginnings of a text, the one of fewer bytes is the beginning of the other. -/
theorem prefix_of_byteLength_le {front front' rest more : List Char}
    (h : front ++ rest = front' ++ more) (hle : byteLength front ≤ byteLength front') :
    front <+: front' := by
  rcases List.prefix_or_prefix_of_prefix ⟨rest, h⟩ ⟨more, rfl⟩ with hp | ⟨tail, rfl⟩
  · exact hp
  · have htail : tail = [] := by
      refine Decidable.byContradiction fun hne => ?_
      have := byteLength_pos hne
      rw [byteLength_append] at hle
      omega
    exact ⟨[], by rw [htail, List.append_nil, List.append_nil]⟩

theorem utf8Size_of_le {c : Char} (h : c ≤ '\x7F') : c.utf8Size = 1 :=
  Char.utf8Size_eq_one_iff.2 h

theorem byteLength_eq_length (h : ∀ c ∈ cs, c ≤ '\x7F') : byteLength cs = cs.length := by
  induction cs with
  | nil => rfl
  | cons c rest ih =>
      rw [byteLength, utf8Size_of_le (h c List.mem_cons_self),
        ih fun c hc => h c (List.mem_cons_of_mem _ hc), List.length_cons, Nat.add_comm]

theorem le_of_isDigit {c : Char} (h : isDigit c) : c ≤ '\x7F' := by
  simp only [isDigit, Bool.and_eq_true, decide_eq_true_eq] at h
  exact Char.le_trans h.2 (by decide)

theorem le_of_isHexDigit {c : Char} (h : isHexDigit c) : c ≤ '\x7F' := by
  simp only [isHexDigit, Bool.or_eq_true, Bool.and_eq_true, decide_eq_true_eq] at h
  rcases h with (h | h) | h
  · exact le_of_isDigit h
  · exact Char.le_trans h.2 (by decide)
  · exact Char.le_trans h.2 (by decide)

theorem byteLength_takeWhile {p : Char → Bool} (hp : ∀ c, p c → c ≤ '\x7F') (cs : List Char) :
    byteLength (cs.takeWhile p) = (cs.takeWhile p).length :=
  byteLength_eq_length fun c hc => hp c (List.all_eq_true.1 List.all_takeWhile c hc)

/-- From the offset `here` on, `taken` is taken off a text and `r` is left. -/
structure Takes (here : Nat) (cs taken : List Char) (r : Rest) : Prop where
  chars : cs = taken ++ r.chars
  offset : r.offset = here + byteLength taken

theorem Takes.nil : Takes here cs [] ⟨here, cs⟩ := ⟨rfl, rfl⟩

theorem Takes.cons (c : Char) (h : Takes (here + c.utf8Size) cs taken r) :
    Takes here (c :: cs) (c :: taken) r where
  chars := by rw [h.chars, List.cons_append]
  offset := by rw [h.offset, byteLength, Nat.add_assoc]

theorem Takes.ascii {c : Char} (hc : c ≤ '\x7F') (h : Takes (here + 1) cs taken r) :
    Takes here (c :: cs) (c :: taken) r := by
  refine .cons c ?_
  rwa [utf8Size_of_le hc]

theorem Takes.append {taken' : List Char} {r' : Rest} (h : Takes here cs taken r)
    (h' : Takes r.offset r.chars taken' r') : Takes here cs (taken ++ taken') r' where
  chars := by rw [h.chars, h'.chars, List.append_assoc]
  offset := by rw [h'.offset, h.offset, byteLength_append, Nat.add_assoc]

theorem Takes.run {p : Char → Bool} (hp : ∀ c, p c → c ≤ '\x7F')
    (h : Takes (here + (cs.takeWhile p).length) (cs.dropWhile p) taken r) :
    Takes here cs (cs.takeWhile p ++ taken) r where
  chars := by rw [List.append_assoc, ← h.chars, List.takeWhile_append_dropWhile]
  offset := by rw [h.offset, byteLength_append, byteLength_takeWhile hp, Nat.add_assoc]

/-! Gaps. -/

/-- Blanks and comments in front of the text `after`. A line comment goes up to a line break or to the
end, a block comment up to the first end of comment in it. -/
inductive Gap (after : List Char) : List Char → Prop
  | nil : Gap after []
  | blank {c : Char} {gap : List Char} (hc : isSpace c || isLineBreak c) (h : Gap after gap) :
      Gap after (c :: gap)
  | line {text gap : List Char} (ht : ∀ c ∈ text, isLineBreak c = false)
      (he : (gap ++ after).head?.all isLineBreak) (h : Gap after gap) :
      Gap after ('/' :: '/' :: (text ++ gap))
  | block {text gap : List Char} (ht : ¬ ['*', '/'] <:+: text ++ ['*']) (h : Gap after gap) :
      Gap after ('/' :: '*' :: (text ++ '*' :: '/' :: gap))

def Skipped (after : List Char) : Between → List Char → Prop
  | .blanks, gap => Gap after gap
  | .lineComment, gap => ∃ text gap', gap = text ++ gap' ∧ (∀ c ∈ text, isLineBreak c = false) ∧
      (gap' ++ after).head?.all isLineBreak ∧ Gap after gap'
  | .blockComment _, gap => ∃ text gap', gap = text ++ '*' :: '/' :: gap' ∧
      ¬ ['*', '/'] <:+: text ++ ['*'] ∧ Gap after gap'

theorem Skipped.cons_line {c : Char} {gap : List Char}
    (h : Skipped after (if isLineBreak c then .blanks else .lineComment) gap) :
    Skipped after .lineComment (c :: gap) := by
  cases hc : isLineBreak c with
  | true =>
      rw [hc] at h
      exact ⟨[], c :: gap, rfl, by simp, by simp [hc], .blank (by simp [hc]) h⟩
  | false =>
      rw [hc] at h
      obtain ⟨text, gap', rfl, ht, he, hg⟩ := h
      exact ⟨c :: text, gap', rfl, List.forall_mem_cons.2 ⟨hc, ht⟩, he, hg⟩

theorem Skipped.cons_block {c : Char} {gap : List Char} (h : Skipped after (.blockComment start) gap)
    (hc : ¬ ['*', '/'] <+: c :: (gap ++ after)) : Skipped after (.blockComment start) (c :: gap) := by
  obtain ⟨text, gap', rfl, ht, hg⟩ := h
  refine ⟨c :: text, gap', rfl, fun hi => ?_, hg⟩
  rcases List.infix_cons_iff.1 hi with hp | hi
  · refine hc (hp.trans ?_)
    exact List.cons_prefix_cons.2 ⟨rfl, ⟨'/' :: (gap' ++ after), by simp⟩⟩
  · exact ht hi

theorem skipped_of_skip {mode : Between} (h : skip mode here cs = .ok r) :
    ∃ gap, Takes here cs gap r ∧ Skipped r.chars mode gap := by
  fun_induction skip mode here cs with
  | case1 => cases h
  | case2 mode here hm =>
      cases h
      refine ⟨[], .nil, ?_⟩
      cases mode with
      | blanks => exact .nil
      | lineComment => exact ⟨[], [], rfl, by simp, rfl, .nil⟩
      | blockComment start => exact absurd rfl (hm start)
  | case3 here c rest hc ih =>
      obtain ⟨gap, ht, hg⟩ := ih h
      exact ⟨c :: gap, ht.cons c, .blank hc hg⟩
  | case4 here rest hc ih =>
      obtain ⟨_, ht, text, gap, rfl, hl, he, hg⟩ := ih h
      exact ⟨'/' :: '/' :: (text ++ gap), .ascii (by decide) (.ascii (by decide) ht), .line hl he hg⟩
  | case5 here rest hc ih =>
      obtain ⟨_, ht, text, gap, rfl, hi, hg⟩ := ih h
      exact ⟨'/' :: '*' :: (text ++ '*' :: '/' :: gap), .ascii (by decide) (.ascii (by decide) ht),
        .block hi hg⟩
  | case6 | case7 =>
      cases h
      exact ⟨[], .nil, .nil⟩
  | case8 here c rest ih =>
      obtain ⟨gap, ht, hg⟩ := ih h
      exact ⟨c :: gap, ht.cons c, hg.cons_line⟩
  | case9 start here rest ih =>
      obtain ⟨gap, ht, hg⟩ := ih h
      refine ⟨'*' :: '/' :: gap, .ascii (by decide) (.ascii (by decide) ht), [], gap, rfl, ?_, hg⟩
      simp [List.infix_cons_iff]
  | case10 start here rest hn ih =>
      obtain ⟨gap, ht, hg⟩ := ih h
      refine ⟨'*' :: gap, .ascii (by decide) ht, hg.cons_block ?_⟩
      rw [← ht.chars, List.cons_prefix_cons]
      rintro ⟨-, rest', hp⟩
      exact hn rest' hp.symm
  | case11 start here c rest hc ih =>
      obtain ⟨gap, ht, hg⟩ := ih h
      refine ⟨c :: gap, ht.cons c, hg.cons_block ?_⟩
      rw [List.cons_prefix_cons]
      rintro ⟨hp, -⟩
      exact hc hp.symm

/-! Tokens. -/

/-- A name or a keyword: it starts like a name, and goes on as long as one can. -/
def IsWord (s : String) (slice after : List Char) : Prop :=
  slice = s.toList ∧ slice.head?.any isNameStart ∧ slice.all isNamePart ∧
    !after.head?.any isNamePart

/-- The slice in front of the text `after` is what the lexeme is spelled by. -/
def Spells : Lexeme → List Char → List Char → Prop
  | .mark c, slice, _ => slice = [c] ∧ (c = '.' ∨ c ∈ marks)
  | .name s, slice, after => IsWord s slice after ∧ s ∉ keywords
  | .keyword s, slice, after => IsWord s slice after ∧ s ∈ keywords
  | .operator s, slice, after => slice = s.toList ∧ s ∈ operators ∧
      ∀ op ∈ operators, op.toList <+: slice ++ after → op.length ≤ s.length
  | .text _, slice, _ => ∃ quote inner, isQuote quote ∧ slice = quote :: (inner ++ [quote])
  | .number _, slice, _ => slice.head?.any fun c => isDigit c || c = '.'

/-- The token is the next one of a text, from the offset `start` on. -/
structure Scanned (start : Nat) (cs : List Char) (t : Token) (r : Rest) : Prop where
  starts : t.start = start
  stops : t.stop = r.offset
  slice : ∃ slice, slice ≠ [] ∧ Takes start cs slice r ∧ Spells t.lexeme slice r.chars

theorem scanned_scanName {c : Char} (hc : isNameStart c) :
    Scanned start (c :: rest) (scanName start (c :: rest)).1 (scanName start (c :: rest)).2 := by
  have htake : (c :: rest).takeWhile isNamePart = c :: rest.takeWhile isNamePart := by
    rw [List.takeWhile_cons, if_pos (by simp [isNamePart, hc])]
  have hword : IsWord (String.ofList ((c :: rest).takeWhile isNamePart))
      ((c :: rest).takeWhile isNamePart) ((c :: rest).dropWhile isNamePart) := by
    refine ⟨String.toList_ofList.symm, by simp [htake, hc], List.all_takeWhile, ?_⟩
    have hhead := List.head?_dropWhile_not isNamePart (c :: rest)
    cases hd : ((c :: rest).dropWhile isNamePart).head? with
    | none => rfl
    | some c' => simpa [hd] using hhead
  refine ⟨rfl, rfl, (c :: rest).takeWhile isNamePart, by simp [htake],
    ⟨List.takeWhile_append_dropWhile.symm, rfl⟩, ?_⟩
  unfold scanName
  dsimp only
  split
  · next hk => exact ⟨hword, by simpa [isKeyword] using hk⟩
  · next hk => exact ⟨hword, by simpa [isKeyword] using hk⟩

theorem scanned_scanHex {c : Char} (hc : c ≤ '\x7F') (h : scanHex start cs = .ok (t, r)) :
    Scanned start ('0' :: c :: cs) t r := by
  unfold scanHex at h
  dsimp only at h
  split at h
  · cases h
  · cases h
    refine ⟨rfl, rfl, '0' :: c :: (cs.takeWhile isHexDigit ++ []), by simp, ?_, rfl⟩
    exact .ascii (by decide) (.ascii hc (.run (fun _ => le_of_isHexDigit) .nil))

theorem takes_splitSign (here : Nat) (cs : List Char) :
    ∃ sign, Takes here cs sign ⟨here + (splitSign cs).1.toList.length, (splitSign cs).2⟩ := by
  unfold splitSign
  split
  · exact ⟨['+'], .ascii (by decide) .nil⟩
  · exact ⟨['-'], .ascii (by decide) .nil⟩
  · exact ⟨[], .nil⟩

theorem le_of_isExponent {c : Char} (h : c = 'e' || c = 'E') : c ≤ '\x7F' := by
  rcases (by simpa using h : c = 'e' ∨ c = 'E') with rfl | rfl <;> decide

theorem takes_of_scanExponent {n : Int} (h : scanExponent here cs = .ok (n, r)) :
    ∃ taken, Takes here cs taken r := by
  unfold scanExponent at h
  split at h
  · cases h
    exact ⟨[], .nil⟩
  · next c rest =>
      split at h
      · next hc =>
          obtain ⟨sign, hsign⟩ := takes_splitSign (here + 1) rest
          dsimp only at h
          split at h
          · cases h
          · cases h
            exact ⟨_, .ascii (le_of_isExponent hc) (hsign.append (.run (fun _ => le_of_isDigit) .nil))⟩
      · cases h
        exact ⟨[], .nil⟩

theorem takes_splitFraction (here : Nat) (cs : List Char) :
    ∃ taken, Takes here cs taken ⟨here + (if (splitFraction cs).1.isSome then
        1 + ((splitFraction cs).1.getD []).length else 0), (splitFraction cs).2⟩ ∧
      (cs.head? = some '.' → taken ≠ []) := by
  unfold splitFraction
  split
  · next rest =>
      refine ⟨'.' :: (rest.takeWhile isDigit ++ []), .ascii (by decide) ?_, by simp⟩
      rw [if_pos (by rfl), ← Nat.add_assoc]
      exact .run (fun _ => le_of_isDigit) .nil
  · next hn =>
      refine ⟨[], .nil, fun hh => ?_⟩
      cases cs with
      | nil => cases hh
      | cons c rest =>
          cases hh
          exact absurd rfl (hn rest)

theorem scanned_scanDecimal {c : Char} (hc : isDigit c || c = '.')
    (h : scanDecimal start (c :: rest) = .ok (t, r)) : Scanned start (c :: rest) t r := by
  unfold scanDecimal at h
  obtain ⟨part, hpart, hpoint⟩ := takes_splitFraction (start + ((c :: rest).takeWhile isDigit).length)
    ((c :: rest).dropWhile isDigit)
  dsimp only at h
  obtain ⟨⟨n, r'⟩, he, h⟩ := bind_eq_ok.1 h
  obtain ⟨taken, ht⟩ := takes_of_scanExponent he
  dsimp only at h
  split at h
  · cases h
  · cases h
    have hall : Takes start (c :: rest) ((c :: rest).takeWhile isDigit ++ (part ++ taken)) r :=
      .run (fun _ => le_of_isDigit) (hpart.append ht)
    -- the first character is a digit, or it is the point
    have hne : (c :: rest).takeWhile isDigit ++ (part ++ taken) ≠ [] := by
      cases hd : isDigit c with
      | true => simp [hd]
      | false =>
          have hdot : c = '.' := by simpa [hd] using hc
          have := hpoint (by rw [List.dropWhile_cons, hd, hdot]; rfl)
          simp [this]
    refine ⟨rfl, rfl, _, hne, hall, ?_⟩
    obtain ⟨first, more, hslice⟩ := List.exists_cons_of_ne_nil hne
    have hchars := hall.chars
    rw [hslice] at hchars ⊢
    cases hchars
    simpa [Spells] using hc

theorem takes_of_scanText {quote : Char} (hq : isQuote quote) {skipped : Nat} {value : List Char}
    (h : scanText quote start skipped here cs = .ok (value, r)) :
    ∃ inner, Takes here cs (inner ++ [quote]) r := by
  have hascii : quote ≤ '\x7F' := by
    rcases (by simpa [isQuote] using hq : quote = '\'' ∨ quote = '"') with rfl | rfl <;> decide
  fun_induction scanText quote start skipped here cs generalizing value with
  | case1 | case3 | case6 | case7 => cases h
  | case2 skipped here c rest ih =>
      obtain ⟨inner, ht⟩ := ih h
      exact ⟨c :: inner, ht.cons c⟩
  | case4 here rest =>
      cases h
      exact ⟨[], .ascii hascii .nil⟩
  | case5 here rest added skipped _ _ _ ih =>
      obtain ⟨⟨value', r'⟩, hs, h⟩ := bind_eq_ok.1 h
      cases h
      obtain ⟨inner, ht⟩ := ih hs
      exact ⟨'\\' :: inner, .ascii (by decide) ht⟩
  | case8 here c rest _ _ _ ih =>
      obtain ⟨⟨value', r'⟩, hs, h⟩ := bind_eq_ok.1 h
      cases h
      obtain ⟨inner, ht⟩ := ih hs
      exact ⟨c :: inner, ht.cons c⟩

theorem operators_sorted : operators.Pairwise fun op op' => op'.length ≤ op.length := by decide

theorem operators_ascii : ∀ op ∈ operators, op.toList ≠ [] ∧ ∀ c ∈ op.toList, c ≤ '\x7F' := by
  have h : operators.all fun op => !op.toList.isEmpty && op.toList.all (· ≤ '\x7F') := by decide
  simpa using h

theorem marks_ascii : ∀ c ∈ marks, c ≤ '\x7F' := by
  have h : marks.all (· ≤ '\x7F') := by decide
  simpa using h

theorem scanned_scanOperator {c : Char} (h : scanOperator start c cs = .ok (t, r)) :
    Scanned start cs t r := by
  unfold scanOperator at h
  split at h
  · next op hop =>
      cases h
      obtain ⟨hp, before, behind, hops, hbefore⟩ := List.find?_eq_some_iff_append.1 hop
      have hmem : op ∈ operators := by simp [hops]
      obtain ⟨hne, hascii⟩ := operators_ascii op hmem
      obtain ⟨after, rfl⟩ := List.isPrefixOf_iff_prefix.1 hp
      have hdrop : (op.toList ++ after).drop op.length = after := by
        rw [← String.length_toList, List.drop_left]
      refine ⟨rfl, rfl, op.toList, hne, ⟨by rw [hdrop], ?_⟩, rfl, hmem, fun op' hop' hp' => ?_⟩
      · rw [byteLength_eq_length hascii, String.length_toList]
      · rw [hdrop] at hp'
        have hsorted := operators_sorted
        rw [hops] at hsorted hop'
        -- an operator in front of the one found does not start here
        rcases List.mem_append.1 hop' with hm | hm
        · have hno := hbefore op' hm
          rw [List.isPrefixOf_iff_prefix.2 hp'] at hno
          cases hno
        · rcases List.mem_cons.1 hm with rfl | hm
          · exact Nat.le_refl _
          · exact List.rel_of_pairwise_cons (List.pairwise_append.1 hsorted).2.1 hm
  · cases h

theorem scanned_scanToken {c : Char} (h : scanToken start c rest = .ok (t, r)) :
    Scanned start (c :: rest) t r := by
  unfold scanToken at h
  split at h
  · next hc =>
      cases h
      exact scanned_scanName hc
  · split at h
    · next hc =>
        have hfirst : isDigit c || c = '.' := by
          simp only [Bool.or_eq_true, Bool.and_eq_true] at hc ⊢
          exact hc.imp_right And.left
        unfold scanNumber at h
        split at h
        · next hx =>
            cases hx
            exact scanned_scanHex (by decide) h
        · next hx =>
            cases hx
            exact scanned_scanHex (by decide) h
        · exact scanned_scanDecimal hfirst h
    · split at h
      · next hc =>
          cases h
          have hmark : c = '.' ∨ c ∈ marks := by simpa using hc
          have hascii : c ≤ '\x7F' := by
            rcases hmark with rfl | hm
            · decide
            · exact marks_ascii c hm
          exact ⟨rfl, rfl, [c], by simp, .ascii hascii .nil, rfl, hmark⟩
      · split at h
        · next hq =>
            obtain ⟨⟨value, r'⟩, hs, h⟩ := bind_eq_ok.1 h
            cases h
            obtain ⟨inner, ht⟩ := takes_of_scanText hq hs
            have hascii : c ≤ '\x7F' := by
              rcases (by simpa [isQuote] using hq : c = '\'' ∨ c = '"') with rfl | rfl <;> decide
            exact ⟨rfl, rfl, c :: (inner ++ [c]), by simp, .ascii hascii ht, c, inner, hq, rfl⟩
        · exact scanned_scanOperator h

/-! The scanner. -/

/-- The scanner, from the offset `here` on, without a bound on its steps: it skips a gap, and goes on
behind the next token until there is none or something is refused. -/
inductive Scans : Nat → List Char → Except Refusal (List Token) → Prop
  | badGap {here cs fault} (h : skip .blanks here cs = .error fault) : Scans here cs (.error fault)
  | badToken {here cs start c rest fault} (h : skip .blanks here cs = .ok ⟨start, c :: rest⟩)
      (ht : scanToken start c rest = .error fault) : Scans here cs (.error fault)
  | done {here cs stop} (h : skip .blanks here cs = .ok ⟨stop, []⟩) : Scans here cs (.ok [])
  | token {here cs start c rest t r outcome} (h : skip .blanks here cs = .ok ⟨start, c :: rest⟩)
      (ht : scanToken start c rest = .ok (t, r)) (hr : Scans r.offset r.chars outcome) :
      Scans here cs (outcome.map (t :: ·))

theorem scanAll_token {fuel : Nat} {c : Char} (h : skip .blanks here cs = .ok ⟨start, c :: rest⟩)
    (ht : scanToken start c rest = .ok (t, r)) :
    scanAll (fuel + 1) here cs = (scanAll fuel r.offset r.chars).map (t :: ·) := by
  rw [scanAll, h]
  show scanToken start c rest >>= _ = _
  rw [ht]
  show scanAll fuel r.offset r.chars >>= _ = _
  cases scanAll fuel r.offset r.chars <;> rfl

theorem scanAll_badToken {fuel : Nat} {c : Char} {fault : Refusal}
    (h : skip .blanks here cs = .ok ⟨start, c :: rest⟩)
    (ht : scanToken start c rest = .error fault) : scanAll (fuel + 1) here cs = .error fault := by
  rw [scanAll, h]
  show scanToken start c rest >>= _ = _
  rw [ht]
  rfl

theorem length_of_scanToken {c : Char} (h : skip .blanks here cs = .ok ⟨start, c :: rest⟩)
    (ht : scanToken start c rest = .ok (t, r)) : r.chars.length < cs.length := by
  obtain ⟨gap, hgap, -⟩ := skipped_of_skip h
  obtain ⟨slice, hne, hslice, -⟩ := (scanned_scanToken ht).slice
  have hlength := congrArg List.length hgap.chars
  rw [hslice.chars] at hlength
  have := List.length_pos_iff.2 hne
  simp only [List.length_append] at hlength
  omega

/-- A bound above the length of the text is never reached. -/
theorem scans_scanAll {fuel : Nat} (hf : cs.length < fuel) : Scans here cs (scanAll fuel here cs) := by
  induction fuel generalizing here cs with
  | zero => cases hf
  | succ fuel ih =>
      cases hskip : skip .blanks here cs with
      | error fault =>
          rw [scanAll, hskip]
          exact .badGap hskip
      | ok r =>
          obtain ⟨start, chars⟩ := r
          cases chars with
          | nil =>
              rw [scanAll, hskip]
              exact .done hskip
          | cons c rest =>
              cases htoken : scanToken start c rest with
              | error fault =>
                  rw [scanAll_badToken hskip htoken]
                  exact .badToken hskip htoken
              | ok p =>
                  obtain ⟨t, r⟩ := p
                  have := length_of_scanToken hskip htoken
                  rw [scanAll_token hskip htoken]
                  exact .token hskip htoken (ih (by omega))

theorem Scans.unique {outcome outcome' : Except Refusal (List Token)} (h : Scans here cs outcome)
    (h' : Scans here cs outcome') : outcome = outcome' := by
  induction h generalizing outcome' with
  | badGap h => cases h' <;> simp_all
  | badToken h ht => cases h' <;> simp_all
  | done h => cases h' <;> simp_all
  | token h ht hr ih =>
      cases h' with
      | badGap h' => simp [h] at h'
      | badToken h' ht' =>
          cases h.symm.trans h'
          simp [ht] at ht'
      | done h' => simp [h] at h'
      | token h' ht' hr' =>
          cases h.symm.trans h'
          cases ht.symm.trans ht'
          rw [ih hr']

theorem scans_tokenize (source : String) : Scans 0 source.toList (tokenize source) :=
  scans_scanAll (Nat.lt_succ_self _)

theorem tokenize_of_scans {source : String} {outcome : Except Refusal (List Token)}
    (h : Scans 0 source.toList outcome) : tokenize source = outcome :=
  (scans_tokenize source).unique h

/-! Tilings. -/

/-- From the offset `here` on, a text is made up of gaps and of the slices that spell the tokens. -/
inductive Tiles : Nat → List Char → List Token → Prop
  | done {here gap} (hg : Gap [] gap) : Tiles here gap []
  | token {here gap slice rest t ts} (hg : Gap (slice ++ rest) gap) (hs : slice ≠ [])
      (hstart : t.start = here + byteLength gap) (hstop : t.stop = t.start + byteLength slice)
      (hl : Spells t.lexeme slice rest) (hr : Tiles t.stop rest ts) :
      Tiles here (gap ++ (slice ++ rest)) (t :: ts)

theorem tiles_of_scans {ts : List Token} (h : Scans here cs (.ok ts)) : Tiles here cs ts := by
  generalize ho : Except.ok ts = outcome at h
  induction h generalizing ts with
  | badGap | badToken => cases ho
  | done h =>
      cases ho
      obtain ⟨gap, ht, hg⟩ := skipped_of_skip h
      obtain rfl : _ = gap := by simpa using ht.chars
      exact .done hg
  | @token _ _ _ _ _ t r outcome h ht _ ih =>
      cases outcome with
      | error fault => cases ho
      | ok ts' =>
          cases ho
          obtain ⟨gap, hgap, hg⟩ := skipped_of_skip h
          obtain ⟨hstart, hstop, slice, hne, hslice, hspells⟩ := scanned_scanToken ht
          have hchars := hslice.chars
          rw [hgap.chars, hchars]
          rw [hchars] at hg
          refine .token hg hne (hstart.trans hgap.offset) ?_ hspells ?_
          · rw [hstop, hslice.offset, hstart]
          · rw [hstop]
            exact ih rfl

theorem Tiles.le_start {ts : List Token} (h : Tiles here cs ts) : ∀ t ∈ ts, here ≤ t.start := by
  induction h with
  | done => simp
  | token _ _ hstart hstop _ _ ih =>
      refine List.forall_mem_cons.2 ⟨by omega, fun t ht => ?_⟩
      have := ih t ht
      omega

theorem Tiles.pairwise {ts : List Token} (h : Tiles here cs ts) :
    ts.Pairwise fun t t' => t.stop ≤ t'.start := by
  induction h with
  | done => exact .nil
  | token _ _ _ _ _ hr ih => exact .cons hr.le_start ih

/-- A token lies between characters of the text, and spells what is there. -/
def LiesIn (cs : List Char) (here : Nat) (t : Token) : Prop :=
  ∃ before slice after, cs = before ++ (slice ++ after) ∧ slice ≠ [] ∧
    t.start = here + byteLength before ∧ t.stop = t.start + byteLength slice ∧
    Spells t.lexeme slice after

theorem Tiles.liesIn {ts : List Token} (h : Tiles here cs ts) : ∀ t ∈ ts, LiesIn cs here t := by
  induction h with
  | done => simp
  | @token here gap slice rest t ts _ hs hstart hstop hl _ ih =>
      refine List.forall_mem_cons.2 ⟨⟨gap, slice, rest, rfl, hs, hstart, hstop, hl⟩, fun t' ht => ?_⟩
      obtain ⟨before, slice', after, rfl, hs', hstart', hstop', hl'⟩ := ih t' ht
      refine ⟨gap ++ (slice ++ before), slice', after, by simp, hs', ?_, hstop', hl'⟩
      rw [hstart', hstop, hstart, byteLength_append, byteLength_append]
      omega

/-- The scanner ends on every text, and in one way only. If it accepts the text, the
tokens lie in it one behind the other, with blanks and comments and nothing else between them. -/
theorem tokenize_tiles (source : String) :
    (∀ outcome, Scans 0 source.toList outcome ↔ tokenize source = outcome) ∧
    ∀ ts, tokenize source = .ok ts →
      Tiles 0 source.toList ts ∧ (ts.Pairwise fun t t' => t.stop ≤ t'.start) ∧
        ∀ t ∈ ts, t.start < t.stop ∧ LiesIn source.toList 0 t := by
  have hscans := scans_tokenize source
  refine ⟨fun outcome => ⟨fun h => hscans.unique h, fun h => h ▸ hscans⟩, fun ts hok => ?_⟩
  rw [hok] at hscans
  have htiles := tiles_of_scans hscans
  refine ⟨htiles, htiles.pairwise, fun t ht => ?_⟩
  have hlies := htiles.liesIn t ht
  obtain ⟨_, slice, _, _, hne, _, hstop, _⟩ := hlies
  have := byteLength_pos hne
  exact ⟨by omega, htiles.liesIn t ht⟩

/-- A comment before an operator that could go on as another one. -/
theorem tokenize_tiles_shift :
    ∃ ts, tokenize "é/* */>>> '\\''" = .ok ts ∧ ts.length = 3 ∧
      Tiles 0 "é/* */>>> '\\''".toList ts := by
  have hok : (tokenize "é/* */>>> '\\''").toOption.any (fun ts => ts.length = 3) := by decide +kernel
  obtain ⟨ts, h, hlength⟩ := exists_ok_of_any hok
  exact ⟨ts, h, of_decide_eq_true hlength, ((tokenize_tiles _).2 ts h).1⟩

end TwinView.Script
