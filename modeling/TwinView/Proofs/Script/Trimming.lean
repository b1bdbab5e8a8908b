import Mathlib.Data.List.Basic
import TwinView.Proofs.Script.Comments
import TwinView.Proofs.Text.Blanks

/-!
Blanks that are cut off the ends of a text. A text that has tokens still has some without them: behind
the last token they were part of the gap, and in front of the first one there was nothing else.
-/

namespace TwinView.Script

open Text

variable {mode : Between} {here start stop : Nat} {c d : Char} {cs gap rest trail : List Char} {t : Token}
  {r : Rest} {ts : List Token}

def isForeign (c : Char) : Bool :=
  !isNamePart c && c ≠ '.' && !marks.contains c && !isQuote c &&
    operators.all fun op => !op.toList.contains c

theorem foreign_of_blank (h : isBlank c) : isForeign c := by
  have hblanks : ∀ c ∈ charsOf blankRanges, isForeign c := by decide +kernel
  exact hblanks c (mem_charsOf h)

theorem isForeign_iff : isForeign c ↔ isNamePart c = false ∧ c ≠ '.' ∧ c ∉ marks ∧ isQuote c = false ∧
    ∀ op ∈ operators, c ∉ op.toList := by
  simp [isForeign, and_assoc]

theorem stops_of_foreign (h : isForeign c) : stops c := by
  obtain ⟨hname, hdot, -, -, hops⟩ := isForeign_iff.1 h
  simp only [stops, Bool.and_eq_true, List.all_eq_true, Bool.not_eq_true', List.contains_eq_mem,
    decide_eq_false_iff_not, decide_eq_true_eq]
  exact ⟨⟨hname, hdot⟩, fun op hop hc => hops op hop (List.mem_of_mem_tail hc)⟩

theorem ne_of_foreign (h : isForeign c) (hd : isForeign d = false) : c ≠ d := by
  rintro rfl
  rw [h] at hd
  cases hd

theorem suffix_dropWhile {p : Char → Bool} (hp : p c = false) (h : c :: rest <:+ cs) :
    c :: rest <:+ cs.dropWhile p := by
  obtain ⟨front, rfl⟩ := h
  induction front with
  | nil => simp [hp]
  | cons d front ih =>
      rw [List.cons_append, List.dropWhile_cons]
      split
      · exact ih
      · exact List.suffix_append (d :: front) _

theorem suffix_of_cons (hc : c ≠ d) (h : c :: rest <:+ d :: cs) : c :: rest <:+ cs :=
  (List.suffix_cons_iff.1 h).resolve_left fun he => hc (List.cons.inj he).1

theorem suffix_splitFraction (hc : isForeign c) (h : c :: rest <:+ cs) :
    c :: rest <:+ (splitFraction cs).2 := by
  unfold splitFraction
  split
  · exact suffix_dropWhile (not_digit_of_stops (stops_of_foreign hc))
      (suffix_of_cons (ne_of_foreign hc (by decide)) h)
  · exact h

theorem suffix_splitSign (hc : isForeign c) (h : c :: rest <:+ cs) : c :: rest <:+ (splitSign cs).2 := by
  unfold splitSign
  split
  · exact suffix_of_cons (ne_of_foreign hc (by decide)) h
  · exact suffix_of_cons (ne_of_foreign hc (by decide)) h
  · exact h

theorem suffix_scanExponent {n : Int} (hc : isForeign c) (hscan : scanExponent here cs = .ok (n, r))
    (h : c :: rest <:+ cs) : c :: rest <:+ r.chars := by
  cases cs with
  | nil => cases List.suffix_nil.1 h
  | cons d cs =>
      rw [scanExponent] at hscan
      split at hscan
      · next hd =>
          dsimp only at hscan
          split at hscan
          · cases hscan
          · cases hscan
            refine suffix_dropWhile (not_digit_of_stops (stops_of_foreign hc)) (suffix_splitSign hc ?_)
            refine suffix_of_cons (ne_of_foreign hc ?_) h
            rcases (by simpa using hd : d = 'e' ∨ d = 'E') with rfl | rfl <;> decide
      · cases hscan
        exact h

theorem suffix_scanNumber (hc : isForeign c) (hscan : scanNumber start cs = .ok (t, r))
    (h : c :: rest <:+ cs) : c :: rest <:+ r.chars := by
  have hstops := stops_of_foreign hc
  have hhex {cs : List Char} (hscan : scanHex start cs = .ok (t, r)) (h : c :: rest <:+ cs) :
      c :: rest <:+ r.chars := by
    unfold scanHex at hscan
    dsimp only at hscan
    split at hscan
    · cases hscan
    · cases hscan
      exact suffix_dropWhile (not_hexDigit_of_stops hstops) h
  unfold scanNumber at hscan
  split at hscan
  · exact hhex hscan (suffix_of_cons (ne_of_foreign hc (by decide))
      (suffix_of_cons (ne_of_foreign hc (by decide)) h))
  · exact hhex hscan (suffix_of_cons (ne_of_foreign hc (by decide))
      (suffix_of_cons (ne_of_foreign hc (by decide)) h))
  · unfold scanDecimal at hscan
    dsimp only at hscan
    obtain ⟨⟨n, r⟩, he, hscan⟩ := bind_eq_ok.1 hscan
    dsimp only at hscan
    split at hscan
    · cases hscan
    · cases hscan
      refine suffix_scanExponent hc he (suffix_splitFraction hc ?_)
      exact suffix_dropWhile (not_digit_of_stops hstops) h

theorem ne_foreign_of_scanToken {body : List Char} (hscan : scanToken start c rest = .ok (t, r))
    (hslice : c :: rest = body ++ d :: r.chars) : isForeign d = false := by
  rw [← Bool.not_eq_true]
  intro hd
  obtain ⟨hname, hdot, hmark, hquote, hops⟩ := isForeign_iff.1 hd
  -- where the character is left, it cannot be the last one that is taken
  have hleft (h : d :: r.chars <:+ r.chars) : False := Nat.not_succ_le_self _ h.length_le
  have hsuffix : d :: r.chars <:+ c :: rest := ⟨body, hslice.symm⟩
  have hlast {slice : List Char} (h : c :: rest = slice ++ r.chars) : slice = body ++ [d] :=
    List.append_cancel_right (h.symm.trans (hslice.trans (List.append_cons ..)))
  have hscanned := scanned_scanToken hscan
  unfold scanToken at hscan
  split_ifs at hscan with hc hnumber hpunct hquoted
  · cases hscan
    exact hleft (suffix_dropWhile hname hsuffix)
  · exact hleft (suffix_scanNumber hd hscan hsuffix)
  · cases hscan
    refine hleft (suffix_of_cons ?_ hsuffix)
    rintro rfl
    simp [hdot, hmark] at hpunct
  · obtain ⟨⟨value, r'⟩, hs, hscan⟩ := bind_eq_ok.1 hscan
    cases hscan
    obtain ⟨inner, htakes⟩ := takes_of_scanText hquoted hs
    have hends := @hlast (c :: inner ++ [c]) (congrArg (c :: ·) htakes.chars)
    cases (List.append_inj' hends rfl).2
    rw [hquoted] at hquote
    cases hquote
  · unfold scanOperator at hscan
    split at hscan
    · next op _ =>
        cases hscan
        obtain ⟨-, -, _, -, htakes, rfl, hop, -⟩ := hscanned
        refine hops op hop ?_
        rw [hlast htakes.chars]
        simp
    · cases hscan

theorem skip_unterminated (h : '/' ∉ trail) (here : Nat) :
    skip (.blockComment start) here trail = .error ⟨.unterminatedComment, start⟩ := by
  induction trail generalizing here with
  | nil => exact skip.eq_def _ _ _
  | cons c trail ih =>
      obtain ⟨-, h⟩ := not_or.1 fun hm => h (List.mem_cons.2 hm)
      exact (skip_inComment (fun _ hhead => h (List.mem_of_head? hhead)) here).trans (ih h _)

theorem head_of_append (hc : c ∉ trail) (h : (gap ++ trail).head? = some c) : gap.head? = some c := by
  cases gap with
  | nil => exact absurd (List.mem_of_head? h) hc
  | cons d gap => exact h

/-- A gap is one also without what neither begins nor ends a comment. -/
theorem skip_front (hslash : '/' ∉ trail) (hstar : '*' ∉ trail)
    (h : skip mode here (gap ++ trail) = .ok ⟨stop, []⟩) : ∃ stop, skip mode here gap = .ok ⟨stop, []⟩ := by
  fun_induction skip mode here gap with
  | case1 start here => cases (skip_unterminated hslash here).symm.trans h
  | case2 => exact ⟨_, rfl⟩
  | case3 here c gap hc ih => exact ih ((skip_gap hc _ _).symm.trans h)
  | case4 here gap hc ih => exact ih h
  | case5 here gap hc ih => exact ih h
  | case6 here gap hline hblock hc =>
      -- the slash is a token
      have hopens : ¬ OpensComment (gap ++ trail) := by
        rintro (ho | ho)
        · obtain ⟨gap, rfl⟩ := List.head?_eq_some_iff.1 (head_of_append hslash ho)
          exact hline gap rfl
        · obtain ⟨gap, rfl⟩ := List.head?_eq_some_iff.1 (head_of_append hstar ho)
          exact hblock gap rfl
      cases (skip_of_not_opensComment hopens here).symm.trans h
  | case7 here c gap hgap hc =>
      cases (skip_token (by simpa [isGap] using hgap) hc here _).symm.trans h
  | case8 here c gap ih => exact ih ((skip_line here _).symm.trans h)
  | case9 start here gap ih => exact ih ((skip_endComment start here _).symm.trans h)
  | case10 start here gap hn ih =>
      refine ih ((skip_inComment (fun _ hhead => ?_) here).symm.trans h)
      obtain ⟨gap, rfl⟩ := List.head?_eq_some_iff.1 (head_of_append hslash hhead)
      exact hn gap rfl
  | case11 start here c gap hc ih =>
      exact ih ((skip_inComment (fun hstar => absurd hstar hc) here).symm.trans h)

theorem not_mem_foreign (h : ∀ c ∈ trail, isForeign c) (hc : isForeign c = false) : c ∉ trail :=
  fun hm => ne_of_foreign (h c hm) hc rfl

theorem stops_of_forall_foreign (h : ∀ c ∈ trail, isForeign c) : Stops trail := by
  cases trail with
  | nil => rfl
  | cons c trail => exact stops_cons (stops_of_foreign (h c List.mem_cons_self)) trail

theorem alike_front (h : ∀ c ∈ trail, isForeign c) (cs : List Char) : LooksLike (cs ++ trail) cs := by
  cases cs with
  | nil => exact .inr ⟨stops_of_forall_foreign h, rfl, fun ho => by rcases ho with ho | ho <;> cases ho⟩
  | cons => exact .of_head rfl

/-- The character in front of what the first token leaves is not foreign. -/
theorem not_foreign_of_step {front : List Char} (hskip : skip .blanks here cs = .ok ⟨start, c :: rest⟩)
    (ht : scanToken start c rest = .ok (t, r)) (hfront : cs = front ++ d :: r.chars) :
    isForeign d = false := by
  obtain ⟨-, gap, hgap, -⟩ := skip_alike hskip
  obtain ⟨-, -, slice, hne, ⟨hslice, -⟩, -⟩ := scanned_scanToken ht
  obtain ⟨body, d', rfl⟩ := (List.eq_nil_or_concat' slice).resolve_left hne
  rw [hgap, hslice, List.append_cons front, ← List.append_assoc, ← List.append_assoc] at hfront
  cases (List.append_inj' (List.append_cancel_right hfront) rfl).2
  exact ne_foreign_of_scanToken ht (hslice.trans (List.append_cons ..).symm)

theorem scanToken_foreign (h : isForeign c) (start : Nat) (rest : List Char) :
    scanToken start c rest = .error ⟨.unexpectedCharacter c, start⟩ := by
  obtain ⟨hname, hdot, hmark, hquote, hops⟩ := isForeign_iff.1 h
  have hstops := stops_of_foreign h
  have hfind : operators.find? (fun op => op.toList.isPrefixOf (c :: rest)) = none := by
    refine List.find?_eq_none.2 fun op hop hp => ?_
    obtain ⟨-, _⟩ := operators_ascii op hop
    obtain ⟨more, hmore⟩ := List.isPrefixOf_iff_prefix.1 hp
    cases hchars : op.toList with
    | nil => exact (operators_ascii op hop).1 hchars
    | cons d ds =>
        rw [hchars] at hmore
        cases hmore
        exact hops op hop (by simp [hchars])
  simp [scanToken, not_nameStart_of_stops hstops, not_digit_of_stops hstops, hdot, hmark, hquote,
    scanOperator, hfind]

theorem Scans.front (h : Scans here (cs ++ trail) (.ok ts)) (htrail : ∀ c ∈ trail, isForeign c) :
    Scans here cs (.ok ts) := by
  induction ts generalizing here cs with
  | nil =>
      obtain ⟨_, hskip⟩ := skip_of_scans_nil h
      obtain ⟨stop, hskip⟩ :=
        skip_front (not_mem_foreign htrail (by decide)) (not_mem_foreign htrail (by decide)) hskip
      exact .done hskip
  | cons t ts ih =>
      obtain ⟨_, _, _, r, hskip, ht, hr⟩ := step_of_scans_cons h
      obtain ⟨front, t₀, hfront, hoffset, rfl, -, hne, hcut⟩ := cut_token hskip ht
      -- the token ends in front of the foreign characters
      obtain ⟨cs', rfl, hrest⟩ : ∃ cs', cs = front ++ cs' ∧ r.chars = cs' ++ trail := by
        rcases List.append_eq_append_iff.1 hfront with ⟨more, rfl, rfl⟩ | ⟨more, rfl, hr⟩
        · rcases List.eq_nil_or_concat' more with rfl | ⟨more, d, rfl⟩
          · exact ⟨[], by simp, rfl⟩
          · have hd := @not_foreign_of_step _ _ _ d _ _ _ _ (cs ++ more) hskip ht (by simp)
            rw [htrail d (by simp)] at hd
            cases hd
        · exact ⟨more, rfl, hr⟩
      rw [hrest] at hr hcut
      have hscans := hcut here cs' _ (.inr (alike_front htrail cs')) (by rw [← hoffset]; exact ih hr)
      simpa [Except.map] using hscans

theorem Scans.behind {lead : List Char} (h : Scans here (lead ++ cs) (.ok ts))
    (hlead : ∀ c ∈ lead, isForeign c) :
    Scans (here + byteLength lead) cs (.ok ts) := by
  induction lead generalizing here with
  | nil => exact h
  | cons c lead ih =>
      obtain ⟨hc, hlead⟩ := List.forall_mem_cons.1 hlead
      rw [List.cons_append] at h
      rw [byteLength, ← Nat.add_assoc]
      refine ih ?_ hlead
      cases hgap : isGap c with
      | true => exact .of_skip (skip_gap hgap here _).symm h
      | false =>
          have hskip := skip_token hgap (ne_of_foreign hc (by decide)) here (lead ++ cs)
          cases h.unique (.badToken hskip (scanToken_foreign hc here _))

variable {s : String}

/-- A text that has tokens has the same ones without the blanks at its ends. -/
theorem exists_tokenize_trim (h : tokenize s = .ok ts) : ∃ ts₀, tokenize (trim s) = .ok ts₀ ∧
    ts = ts₀.map (·.shift (byteLength (s.toList.takeWhile isBlank))) := by
  obtain ⟨trail, hs, htrail⟩ := exists_trim s
  have hlead : ∀ c ∈ s.toList.takeWhile isBlank, isForeign c := fun c hc =>
    foreign_of_blank (List.all_eq_true.1 List.all_takeWhile c hc)
  have hscans := scans_tokenize s
  rw [h, hs] at hscans
  obtain ⟨ts₀, rfl, hmoved⟩ :=
    exists_moved ((hscans.behind hlead).front fun c hc => foreign_of_blank (htrail c hc))
  refine ⟨ts₀, ?_, by rw [Nat.zero_add]⟩
  have hstart := hmoved 0
  rw [map_shift_zero] at hstart
  exact tokenize_of_scans hstart

end TwinView.Script
