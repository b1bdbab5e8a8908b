import TwinView.Proofs.Script.Splicing

/-!
Texts in a row. Two texts that are put together have the tokens of the first and then those of the
second, unless the first ends in a line comment: then nothing that is put behind it on the same line
is read.
-/

namespace TwinView.Script

open Text

variable {mode mode' : Between} {here stop : Nat} {c : Char} {cs gap rest more : List Char}
  {t : Token} {ts : List Token}

/-- The text has no line break, so that it does not end a line comment. -/
def OnOneLine (cs : List Char) : Prop := ∀ c ∈ cs, isLineBreak c = false

theorem OnOneLine.append {cs' : List Char} (h : OnOneLine cs) (h' : OnOneLine cs') :
    OnOneLine (cs ++ cs') := fun c hc => (List.mem_append.1 hc).elim (h c) (h' c)

/-- The gap comes to an end by itself: what is behind it is read like any other text. -/
def Closes (mode : Between) (gap : List Char) : Prop :=
  ∀ n here rest, skip (mode.relocated n) here (gap ++ rest) = skip .blanks (here + byteLength gap) rest

def LeavesComment (mode : Between) (gap : List Char) : Prop :=
  ∃ closed comment, gap = closed ++ '/' :: '/' :: comment ∧ Closes mode closed ∧ OnOneLine comment

def GapEnds (mode : Between) (gap : List Char) : Prop :=
  Closes mode gap ∨ LeavesComment mode gap ∨ mode = .lineComment ∧ OnOneLine gap

theorem GapEnds.step {first : List Char} (h : GapEnds mode' gap)
    (hstep : ∀ g tail, gap = g ++ tail → Closes mode' g → Closes mode (first ++ g))
    (hline : mode' = .lineComment → OnOneLine gap → GapEnds mode (first ++ gap)) :
    GapEnds mode (first ++ gap) := by
  rcases h with h | ⟨closed, comment, rfl, h, hcomment⟩ | ⟨hmode, h⟩
  · exact .inl (hstep gap [] (List.append_nil gap).symm h)
  · refine .inr (.inl ⟨first ++ closed, comment, (List.append_assoc ..).symm, ?_, hcomment⟩)
    exact hstep closed _ rfl h
  · exact hline hmode h

theorem closes_nil : Closes .blanks [] := fun _ _ _ => rfl

theorem Closes.ne_nil {start : Nat} (h : Closes (.blockComment start) gap) : gap ≠ [] := by
  rintro rfl
  have := h 0 0 []
  cases this

theorem Closes.cons {start : Nat} (h : Closes (.blockComment start) gap)
    (hc : c = '*' → gap.head? ≠ some '/') : Closes (.blockComment start) (c :: gap) := by
  intro n here rest
  have hhead : c = '*' → (gap ++ rest).head? ≠ some '/' := by
    rw [List.head?_append_of_ne_nil _ h.ne_nil]
    exact hc
  rw [byteLength, ← Nat.add_assoc]
  exact (skip_inComment hhead here).trans (h n _ rest)

theorem Closes.skip (h : Closes .blanks gap) (here : Nat) :
    skip .blanks here gap = .ok ⟨here + byteLength gap, []⟩ := by
  have := h 0 here []
  rwa [List.append_nil] at this

theorem gapEnds_of_skip (h : skip mode here gap = .ok ⟨stop, []⟩) : GapEnds mode gap := by
  have hslash : '/'.utf8Size = 1 := rfl
  have hstar : '*'.utf8Size = 1 := rfl
  fun_induction skip mode here gap with
  | case1 => cases h
  | case2 mode here hm =>
      cases mode with
      | blanks => exact .inl closes_nil
      | lineComment => exact .inr (.inr ⟨rfl, by simp [OnOneLine]⟩)
      | blockComment start => exact absurd rfl (hm start)
  | case3 here c gap hc ih =>
      refine @GapEnds.step _ _ _ [c] (ih h) (fun g _ _ hg n here rest => ?_) fun hmode => by cases hmode
      rw [List.singleton_append, byteLength, ← Nat.add_assoc]
      exact (skip_gap hc _ _).trans (hg n _ rest)
  | case4 here gap hc ih =>
      refine @GapEnds.step _ _ _ ['/', '/'] (ih h) (fun g _ _ hg n here rest => ?_) fun _ hline =>
        .inr (.inl ⟨[], gap, rfl, closes_nil, hline⟩)
      refine (hg n (here + 2) rest).trans ?_
      simp only [List.cons_append, List.nil_append, byteLength, hslash]
      rw [show here + 2 + byteLength g = here + (1 + (1 + byteLength g)) by omega]
  | case5 here gap hc ih =>
      refine @GapEnds.step _ _ _ ['/', '*'] (ih h) (fun g _ _ hg n here rest => ?_)
        fun hmode => by cases hmode
      refine (hg here (here + 2) rest).trans ?_
      simp only [List.cons_append, List.nil_append, byteLength, hslash, hstar]
      rw [show here + 2 + byteLength g = here + (1 + (1 + byteLength g)) by omega]
  | case6 | case7 => cases h
  | case8 here c gap ih =>
      refine @GapEnds.step _ _ _ [c] (ih h) (fun g _ _ hg n here rest => ?_) fun hmode hline => ?_
      · have hmode : Between.relocated n (if isLineBreak c then .blanks else .lineComment) =
            if isLineBreak c then .blanks else .lineComment := by
          split <;> rfl
        have hrest := hg n (here + c.utf8Size) rest
        rw [hmode] at hrest
        rw [List.singleton_append, byteLength, ← Nat.add_assoc, ← hrest]
        exact skip_line here _
      · refine .inr (.inr ⟨rfl, List.forall_mem_cons.2 ⟨?_, hline⟩⟩)
        cases hc : isLineBreak c with
        | false => rfl
        | true =>
            rw [hc] at hmode
            cases hmode
  | case9 start here gap ih =>
      refine @GapEnds.step _ _ _ ['*', '/'] (ih h) (fun g _ _ hg n here rest => ?_)
        fun hmode => by cases hmode
      refine (skip_endComment n here _).trans ((hg n (here + 2) rest).trans ?_)
      simp only [List.cons_append, List.nil_append, byteLength, hslash, hstar]
      rw [show here + 2 + byteLength g = here + (1 + (1 + byteLength g)) by omega]
  | case10 start here gap hn ih =>
      refine @GapEnds.step _ _ _ ['*'] (ih h) (fun g tail hgap hg => hg.cons fun _ hhead => ?_)
        fun hmode => by cases hmode
      obtain ⟨g, rfl⟩ := List.head?_eq_some_iff.1 hhead
      exact hn (g ++ tail) hgap
  | case11 start here c gap hc ih =>
      exact @GapEnds.step _ _ _ [c] (ih h) (fun g _ _ hg => hg.cons fun hstar => absurd hstar hc)
        fun hmode => by cases hmode

/-- Nothing is read behind the slashes of a line comment, up to the next line break. -/
theorem skip_lineComment (h : OnOneLine cs) (here : Nat) :
    ∃ stop, skip .lineComment here cs = .ok ⟨stop, []⟩ := by
  induction cs generalizing here with
  | nil => exact ⟨here, skip.eq_def _ _ _⟩
  | cons c cs ih =>
      obtain ⟨hc, hcs⟩ := List.forall_mem_cons.1 h
      obtain ⟨stop, hs⟩ := ih hcs (here + c.utf8Size)
      refine ⟨stop, (skip_line here cs).trans ?_⟩
      rw [hc]
      exact hs

theorem GapEnds.skip (h : GapEnds .blanks gap) (here : Nat) :
    ∃ stop, skip .blanks here gap = .ok ⟨stop, []⟩ := by
  rcases h with h | ⟨closed, comment, rfl, h, hcomment⟩ | ⟨hmode, -⟩
  · exact ⟨_, h.skip here⟩
  · obtain ⟨stop, hs⟩ := skip_lineComment hcomment (here + byteLength closed + 2)
    exact ⟨stop, (h 0 here _).trans hs⟩
  · cases hmode

/-- Behind a gap, a line comment goes on with the comment that the gap leaves, or it is one of its own. -/
theorem GapEnds.comment (h : GapEnds .blanks gap) (hcs : OnOneLine cs) :
    GapEnds .blanks (gap ++ '/' :: '/' :: cs) := by
  rcases h with h | ⟨closed, comment, rfl, h, hcomment⟩ | ⟨hmode, -⟩
  · exact .inr (.inl ⟨gap, cs, rfl, h, hcs⟩)
  · refine .inr (.inl ⟨closed, comment ++ '/' :: '/' :: cs, by simp, h, hcomment.append ?_⟩)
    exact List.forall_mem_cons.2 ⟨by decide, List.forall_mem_cons.2 ⟨by decide, hcs⟩⟩
  · cases hmode

/-- Texts of one length at the beginning of a text are the same. -/
theorem eq_of_byteLength {front front' : List Char} (h : front ++ rest = front' ++ more)
    (hlength : byteLength front = byteLength front') : front = front' ∧ rest = more := by
  have heq : front = front' := by
    have hp := prefix_of_byteLength_le h (Nat.le_of_eq hlength)
    have hp' := prefix_of_byteLength_le h.symm (Nat.le_of_eq hlength.symm)
    exact hp.eq_of_length (Nat.le_antisymm hp.length_le hp'.length_le)
  rw [heq] at h
  exact ⟨heq, List.append_cancel_left h⟩

theorem skip_of_scans_nil (h : Scans here cs (.ok [])) : ∃ stop, skip .blanks here cs = .ok ⟨stop, []⟩ := by
  generalize ho : Except.ok [] = outcome at h
  cases h with
  | badGap | badToken => cases ho
  | done hskip => exact ⟨_, hskip⟩
  | @token _ _ _ _ _ _ _ outcome => cases outcome <;> cases ho

theorem step_of_scans_cons (h : Scans here cs (.ok (t :: ts))) : ∃ start c rest, ∃ r : Rest,
    skip .blanks here cs = .ok ⟨start, c :: rest⟩ ∧ scanToken start c rest = .ok (t, r) ∧
      Scans r.offset r.chars (.ok ts) := by
  generalize ho : Except.ok (t :: ts) = outcome at h
  cases h with
  | badGap | badToken | done => cases ho
  | @token _ _ _ _ _ _ _ outcome hskip ht hr =>
      cases outcome <;> cases ho
      exact ⟨_, _, _, _, hskip, ht, hr⟩

/-- Where a line comment adds nothing to the tokens of a text, it does not with more on its line. -/
theorem scans_unread {code comment : List Char} (h : Scans here code (.ok ts))
    (hs : Scans here (code ++ '/' :: '/' :: comment) (.ok ts)) (hline : OnOneLine (comment ++ more)) :
    Scans here (code ++ '/' :: '/' :: (comment ++ more)) (.ok ts) := by
  induction ts generalizing here code with
  | nil =>
      obtain ⟨_, hskip⟩ := skip_of_scans_nil h
      obtain ⟨stop, hskip⟩ := ((gapEnds_of_skip hskip).comment hline).skip here
      exact .done hskip
  | cons t ts ih =>
      obtain ⟨_, _, _, r, hskip, ht, hr⟩ := step_of_scans_cons h
      obtain ⟨_, _, _, r', hskip', ht', hr'⟩ := step_of_scans_cons hs
      obtain ⟨front, t₀, rfl, hoffset, rfl, hstop, -, -⟩ := cut_token hskip ht
      obtain ⟨front', t₁, hfront, hoffset', hshift, hstop', -, hcut⟩ := cut_token hskip' ht'
      -- the first token ends at one place in both texts
      have hlength : byteLength front = byteLength front' := by
        have := congrArg Token.stop hshift
        simp only [Token.shift] at this
        omega
      rw [List.append_assoc] at hfront
      obtain ⟨rfl, hchars⟩ := eq_of_byteLength hfront hlength
      rw [hoffset', ← hoffset, ← hchars] at hr'
      have hrest := ih hr hr'
      rw [hoffset] at hrest
      have halike : LooksLike r'.chars (r.chars ++ '/' :: '/' :: (comment ++ more)) := by
        rw [← hchars]
        refine .of_head ?_
        cases r.chars <;> rfl
      have hscans := hcut here _ _ (.inr halike) hrest
      rw [← List.append_assoc] at hscans
      simpa [← hshift, Except.map] using hscans

/-- The text of a line comment ends the source: it has the tokens of what is in front of the comment. -/
def EndsInComment (s : String) : Prop :=
  ∃ code comment, s.toList = code ++ '/' :: '/' :: comment ∧ OnOneLine comment ∧
    tokenize (String.ofList code) = tokenize s

theorem not_endsInComment {s : String} (h : '/' ∉ s.toList) : ¬ EndsInComment s := by
  rintro ⟨code, comment, hs, -, -⟩
  refine h ?_
  rw [hs]
  simp

variable {s x : String} {tx : List Token}

/-- What is put behind a line comment, on its line, is not read. -/
theorem tokenize_append_unread (hs : tokenize s = .ok ts) (hcomment : EndsInComment s)
    (hx : OnOneLine x.toList) : tokenize (s ++ x) = .ok ts := by
  obtain ⟨code, comment, hchars, hline, hcode⟩ := hcomment
  have hscode := scans_tokenize (String.ofList code)
  have hsource := scans_tokenize s
  rw [hcode, hs, String.toList_ofList] at hscode
  rw [hs, hchars] at hsource
  refine tokenize_of_scans ?_
  rw [String.toList_append, hchars, List.append_assoc]
  exact scans_unread hscode hsource (hline.append hx)

theorem stops_cons (h : stops c) (cs : List Char) : Stops (c :: cs) := h

theorem closes_of_not_endsInComment {front : List Char} {ts₀ : List Token}
    (hs : Splits 0 s.toList ts front gap ts₀) (hok : tokenize s = .ok ts) (hcomment : ¬ EndsInComment s) :
    Closes .blanks gap := by
  obtain ⟨_, _, hskip⟩ := hs.ends
  rcases gapEnds_of_skip hskip with h | ⟨closed, comment, rfl, h, hline⟩ | ⟨hmode, -⟩
  · exact h
  · refine absurd ⟨front ++ closed, comment, ?_, hline, ?_⟩ hcomment
    · rw [hs.chars, List.append_assoc]
    · have halike : LooksLike (closed ++ '/' :: '/' :: comment) closed := by
        cases closed with
        | nil => exact .inr ⟨stops_cons (by decide) _, rfl, fun h => by rcases h with h | h <;> cases h⟩
        | cons => exact .of_head rfl
      have hscans := hs.cut 0 closed (.ok []) (.inr halike) (.done (h.skip _))
      rw [hok, tokenize_of_scans (by rwa [String.toList_ofList])]
      simp [Except.map, hs.tokens]
  · cases hmode

theorem exists_moved (h : Scans here cs (.ok ts)) : ∃ ts₀ : List Token, ts = ts₀.map (·.shift here) ∧
    ∀ here', Scans here' cs (.ok (ts₀.map (·.shift here'))) := by
  obtain ⟨front, gap, ts₀, hs⟩ := exists_splits h
  obtain ⟨_, _, hskip⟩ := hs.ends
  refine ⟨ts₀, hs.tokens, fun here' => ?_⟩
  obtain ⟨stop, hskip⟩ := (gapEnds_of_skip hskip).skip (here' + byteLength front)
  have hscans := hs.cut here' gap (.ok []) (.inr (.of_head rfl)) (.done hskip)
  rw [← hs.chars] at hscans
  simpa [Except.map] using hscans

/-- A text and one behind it, where the first ends in no line comment and its last token does not go on in
the second. -/
theorem tokenize_append (hs : tokenize s = .ok ts) (hx : tokenize x = .ok tx) (hcomment : ¬ EndsInComment s)
    (hseam : ts.getLast?.any Token.isMark ∨ Stops x.toList ∧ ¬ OpensComment x.toList) :
    tokenize (s ++ x) = .ok (ts ++ tx.map (·.shift (byteLength s.toList))) := by
  have hsource := scans_tokenize s
  have hbehind := scans_tokenize x
  rw [hs] at hsource
  rw [hx] at hbehind
  obtain ⟨front, gap, ts₀, hsplits⟩ := exists_splits hsource
  have hcloses := closes_of_not_endsInComment hsplits hs hcomment
  obtain ⟨tx, rfl, hmoved⟩ := exists_moved hbehind
  rw [map_shift_zero]
  have hrest := Scans.of_skip (hcloses 0 (byteLength front) x.toList) (hmoved _)
  have hmore : ts.getLast?.any Token.isMark ∨ LooksLike gap (gap ++ x.toList) := by
    refine hseam.imp_right fun ⟨hstops, hopens⟩ => ?_
    cases gap with
    | nil => exact .inr ⟨rfl, hstops, fun h => absurd h hopens⟩
    | cons c gap => exact .of_head rfl
  have hscans := hsplits.cut 0 (gap ++ x.toList) _ hmore (by rwa [Nat.zero_add])
  refine tokenize_of_scans ?_
  rw [String.toList_append, hsplits.chars, List.append_assoc, byteLength_append]
  simpa [Except.map, hsplits.tokens] using hscans

end TwinView.Script
