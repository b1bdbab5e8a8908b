import Mathlib.Data.List.Find
import Mathlib.Data.List.Infix
import TwinView.Proofs.Script.Lexing

/-!
What the scanner sees of the text behind a token. It is the next character at most, and a character
that goes on with no token might as well be the end; so a text has the same tokens in front of any two
rests that look alike. From this follow the tokens of a text that is copied into another one.
-/

namespace TwinView.Script

open Text

variable {here here' start start' : Nat} {c : Char} {cs body rest rest' more : List Char} {t : Token}
  {r : Rest} {l : Lexeme}

/-! Rests that look alike. -/

/-- The character goes on with no token: it belongs to no name or number, and to no operator but at its
beginning. -/
def stops (c : Char) : Bool :=
  !isNamePart c && c ≠ '.' && operators.all fun op => !op.toList.tail.contains c

def Stops (rest : List Char) : Prop := rest.head?.all stops

def OpensComment (rest : List Char) : Prop := rest.head? = some '/' ∨ rest.head? = some '*'

def LooksLike (rest rest' : List Char) : Prop :=
  rest.head? = rest'.head? ∨ Stops rest ∧ Stops rest' ∧ (OpensComment rest' → OpensComment rest)

theorem LooksLike.of_head (h : rest.head? = rest'.head?) : LooksLike rest rest' := .inl h

theorem LooksLike.append (h : LooksLike rest rest') (cs : List Char) :
    LooksLike (cs ++ rest) (cs ++ rest') := by
  cases cs with
  | nil => exact h
  | cons d cs => exact .inl rfl

/-- A property that no stopping character has is had by both first characters or by neither. -/
theorem LooksLike.any_eq {p : Char → Bool} (h : LooksLike rest rest') (hp : ∀ c, stops c → p c = false) :
    rest.head?.any p = rest'.head?.any p := by
  have hstops {cs : List Char} (h : Stops cs) : cs.head?.any p = false := by
    cases cs with
    | nil => rfl
    | cons d cs => exact hp d h
  rcases h with h | ⟨h, h', -⟩
  · rw [h]
  · rw [hstops h, hstops h']

theorem LooksLike.opensComment (h : LooksLike rest rest') (ho : OpensComment rest') : OpensComment rest := by
  rcases h with h | ⟨-, -, h⟩
  · rwa [OpensComment, h]
  · exact h ho

theorem not_namePart_of_stops (h : stops c) : isNamePart c = false := by
  simp only [stops, Bool.and_eq_true, Bool.not_eq_true'] at h
  exact h.1.1

theorem not_digit_of_stops (h : stops c) : isDigit c = false := by
  have := not_namePart_of_stops h
  simp only [isNamePart, Bool.or_eq_false_iff] at this
  exact this.2

theorem not_nameStart_of_stops (h : stops c) : isNameStart c = false := by
  have := not_namePart_of_stops h
  simp only [isNamePart, Bool.or_eq_false_iff] at this
  exact this.1

theorem not_hexDigit_of_stops (h : stops c) : isHexDigit c = false := by
  have hdigit := not_digit_of_stops h
  have hletter := not_nameStart_of_stops h
  simp only [isNameStart, isLetter, Bool.or_eq_false_iff, Bool.and_eq_false_iff,
    decide_eq_false_iff_not] at hletter
  simp only [isHexDigit, hdigit, Bool.false_or, Bool.or_eq_false_iff, Bool.and_eq_false_iff,
    decide_eq_false_iff_not]
  have hf : ('f' : Char) ≤ 'z' := by decide
  have hF : ('F' : Char) ≤ 'Z' := by decide
  refine ⟨hletter.1.1.1.1.imp_right fun hn hc => hn (Char.le_trans hc hf), ?_⟩
  exact hletter.1.1.1.2.imp_right fun hn hc => hn (Char.le_trans hc hF)

/-- A run of characters of a kind to which no stopping character belongs. -/
theorem span_alike {p : Char → Bool} (hp : ∀ c, stops c → p c = false)
    (h : LooksLike (cs.dropWhile p) rest') :
    (cs.takeWhile p ++ rest').takeWhile p = cs.takeWhile p ∧
      (cs.takeWhile p ++ rest').dropWhile p = rest' := by
  have hstop : rest'.head?.any p = false := by
    rw [← h.any_eq hp]
    have hhead := List.head?_dropWhile_not p cs
    cases hd : (cs.dropWhile p).head? with
    | none => rfl
    | some d => simpa [hd] using hhead
  have hall : ∀ c ∈ cs.takeWhile p, p c := List.all_eq_true.1 List.all_takeWhile
  exact ⟨takeWhile_front hall hstop, dropWhile_front hall hstop⟩

/-- A run that is all of the text in front of the rest. -/
theorem run_alike {p : Char → Bool} (hp : ∀ c, stops c → p c = false) (h : LooksLike rest rest')
    (hrest : (body ++ rest).dropWhile p = rest) : (body ++ rest).takeWhile p = body ∧
      (body ++ rest').takeWhile p = body ∧ (body ++ rest').dropWhile p = rest' := by
  have hsplit := List.takeWhile_append_dropWhile (p := p) (l := body ++ rest)
  rw [hrest] at hsplit
  have hbody := List.append_cancel_right hsplit
  have hspan := span_alike hp (by rwa [hrest] : LooksLike ((body ++ rest).dropWhile p) rest')
  rw [hbody] at hspan
  exact ⟨hbody, hspan⟩

/-! Gaps. -/

def Between.relocated (n : Nat) : Between → Between
  | .blockComment _ => .blockComment n
  | mode => mode

theorem skip_line (here : Nat) (cs : List Char) :
    skip .lineComment here (c :: cs) =
      skip (if isLineBreak c then .blanks else .lineComment) (here + c.utf8Size) cs := skip.eq_def _ _ _

theorem skip_endComment (n here : Nat) (cs : List Char) :
    skip (.blockComment n) here ('*' :: '/' :: cs) = skip .blanks (here + 2) cs := skip.eq_def _ _ _

theorem skip_of_not_opensComment (h : ¬ OpensComment cs) (here : Nat) :
    skip .blanks here ('/' :: cs) = .ok ⟨here, '/' :: cs⟩ := by
  cases cs with
  | nil => exact skip.eq_def _ _ _
  | cons d cs =>
      refine skip_slash ?_ ?_ here cs
      · rintro rfl
        exact h (.inl rfl)
      · rintro rfl
        exact h (.inr rfl)

/-- The gap in front of a token is skipped wherever it stands, and whatever is behind the token; only a
slash must not begin a comment. -/
theorem skip_alike {mode : Between} (h : skip mode here cs = .ok ⟨start, c :: rest⟩) :
    (c = '/' → ¬ OpensComment rest) ∧ ∃ gap, cs = gap ++ c :: rest ∧
      ∀ n here' rest', (c = '/' → ¬ OpensComment rest') →
        skip (mode.relocated n) here' (gap ++ c :: rest') = .ok ⟨here' + byteLength gap, c :: rest'⟩ := by
  fun_induction skip mode here cs with
  | case1 | case2 => cases h
  | case3 here c' cs hc ih =>
      obtain ⟨hslash, gap, rfl, hskip⟩ := ih h
      refine ⟨hslash, c' :: gap, rfl, fun n here' rest' hr => ?_⟩
      rw [List.cons_append, byteLength, ← Nat.add_assoc]
      exact (skip_gap hc _ _).trans (hskip n _ rest' hr)
  | case4 here cs hc ih =>
      obtain ⟨hslash, gap, rfl, hskip⟩ := ih h
      refine ⟨hslash, '/' :: '/' :: gap, rfl, fun n here' rest' hr => ?_⟩
      refine (hskip n (here' + 2) rest' hr).trans ?_
      simp [byteLength, show '/'.utf8Size = 1 from rfl, Nat.add_assoc]
      omega
  | case5 here cs hc ih =>
      obtain ⟨hslash, gap, rfl, hskip⟩ := ih h
      refine ⟨hslash, '/' :: '*' :: gap, rfl, fun n here' rest' hr => ?_⟩
      refine (hskip here' (here' + 2) rest' hr).trans ?_
      simp [byteLength, show '/'.utf8Size = 1 from rfl, show '*'.utf8Size = 1 from rfl]
      omega
  | case6 here cs hline hblock _ =>
      cases h
      refine ⟨fun _ ho => ?_, [], rfl, fun n here' rest' hr => ?_⟩
      · cases rest with
        | nil => rcases ho with ho | ho <;> cases ho
        | cons d rest =>
            rcases ho with ho | ho <;> cases ho
            · exact hline rest rfl
            · exact hblock rest rfl
      · exact skip_of_not_opensComment (hr rfl) here'
  | case7 here c' cs hgap hc =>
      cases h
      exact ⟨fun hslash => absurd hslash hc, [], rfl, fun n here' rest' _ =>
        skip_token (by simpa [isGap] using hgap) hc here' rest'⟩
  | case8 here c' cs ih =>
      obtain ⟨hslash, gap, rfl, hskip⟩ := ih h
      refine ⟨hslash, c' :: gap, rfl, fun n here' rest' hr => ?_⟩
      have hmode : Between.relocated n (if isLineBreak c' then .blanks else .lineComment) =
          if isLineBreak c' then .blanks else .lineComment := by
        split <;> rfl
      have hrest := hskip n (here' + c'.utf8Size) rest' hr
      rw [hmode] at hrest
      rw [List.cons_append, byteLength, ← Nat.add_assoc, ← hrest]
      exact skip_line here' _
  | case9 _ here cs ih =>
      obtain ⟨hslash, gap, rfl, hskip⟩ := ih h
      refine ⟨hslash, '*' :: '/' :: gap, rfl, fun n here' rest' hr => ?_⟩
      refine (skip_endComment n here' _).trans ((hskip n (here' + 2) rest' hr).trans ?_)
      simp [byteLength, show '/'.utf8Size = 1 from rfl, show '*'.utf8Size = 1 from rfl]
      omega
  | case10 _ here cs hn ih =>
      obtain ⟨hslash, gap, rfl, hskip⟩ := ih h
      refine ⟨hslash, '*' :: gap, rfl, fun n here' rest' hr => ?_⟩
      have hrest := hskip n (here' + '*'.utf8Size) rest' hr
      rw [List.cons_append, byteLength, ← Nat.add_assoc, ← hrest]
      refine skip_inComment (fun _ hhead => ?_) here'
      have hhead : (gap ++ c :: rest).head? = some '/' := by
        cases gap <;> exact hhead
      cases hcons : gap ++ c :: rest with
      | nil => simp at hcons
      | cons d cs =>
          rw [hcons] at hhead
          cases hhead
          exact hn cs hcons
  | case11 _ here c' cs hc ih =>
      obtain ⟨hslash, gap, rfl, hskip⟩ := ih h
      refine ⟨hslash, c' :: gap, rfl, fun n here' rest' hr => ?_⟩
      have hrest := hskip n (here' + c'.utf8Size) rest' hr
      rw [List.cons_append, byteLength, ← Nat.add_assoc, ← hrest]
      exact skip_inComment (fun hstar => absurd hstar hc) here'

/-! Tokens. -/

def Delivers (l : Lexeme) (rest : List Char) (x : Except Refusal (Token × Rest)) : Prop :=
  ∃ t r, x = .ok (t, r) ∧ t.lexeme = l ∧ r.chars = rest

theorem delivers_scanName (h : LooksLike rest rest')
    (hx : Delivers l rest (.ok (scanName start (body ++ rest)))) :
    Delivers l rest' (.ok (scanName start' (body ++ rest'))) := by
  obtain ⟨t, r, hx, rfl, hr⟩ := hx
  cases hx
  obtain ⟨hbody, htake, hdrop⟩ := run_alike (fun _ => not_namePart_of_stops) h hr
  exact ⟨_, _, rfl, by simp only [htake, hbody], hdrop⟩

theorem delivers_scanHex (h : LooksLike rest rest') (hx : Delivers l rest (scanHex start (body ++ rest))) :
    Delivers l rest' (scanHex start' (body ++ rest')) := by
  obtain ⟨t, r, hx, rfl, hr⟩ := hx
  unfold scanHex at hx
  dsimp only at hx
  split at hx
  · cases hx
  · next hdigits =>
      cases hx
      obtain ⟨hbody, htake, hdrop⟩ := run_alike (fun _ => not_hexDigit_of_stops) h hr
      rw [hbody] at hdigits ⊢
      unfold scanHex
      dsimp only
      rw [htake, if_neg hdigits]
      exact ⟨_, _, rfl, rfl, hdrop⟩

theorem splitFraction_alike (cs : List Char) : ∃ taken, cs = taken ++ (splitFraction cs).2 ∧
    ∀ rest', LooksLike (splitFraction cs).2 rest' →
      splitFraction (taken ++ rest') = ((splitFraction cs).1, rest') := by
  rw [splitFraction.eq_def cs]
  split
  · next cs =>
      refine ⟨'.' :: cs.takeWhile isDigit, by simp, fun rest' ha => ?_⟩
      obtain ⟨htake, hdrop⟩ := span_alike (fun _ => not_digit_of_stops) ha
      simp only [List.cons_append, splitFraction, htake, hdrop]
  · next hdot =>
      refine ⟨[], rfl, fun rest' ha => ?_⟩
      rw [List.nil_append, splitFraction]
      rintro more rfl
      rcases ha with ha | ⟨-, ha, -⟩
      · obtain ⟨more, rfl⟩ := List.head?_eq_some_iff.1 ha
        exact hdot more rfl
      · exact Bool.false_ne_true ha

theorem splitSign_alike (cs : List Char) : ∃ taken, cs = taken ++ (splitSign cs).2 ∧
    ∀ rest', (splitSign cs).2.head? = rest'.head? →
      splitSign (taken ++ rest') = ((splitSign cs).1, rest') := by
  rw [splitSign.eq_def cs]
  split
  · exact ⟨['+'], rfl, fun _ _ => rfl⟩
  · exact ⟨['-'], rfl, fun _ _ => rfl⟩
  · next hplus hminus =>
      refine ⟨[], rfl, fun rest' hhead => ?_⟩
      rw [List.nil_append, splitSign]
      · rintro more rfl
        obtain ⟨more, rfl⟩ := List.head?_eq_some_iff.1 hhead
        exact hplus more rfl
      · rintro more rfl
        obtain ⟨more, rfl⟩ := List.head?_eq_some_iff.1 hhead
        exact hminus more rfl

theorem scanExponent_none (h : cs.head?.any (fun c => c = 'e' || c = 'E') = false) (here : Nat) :
    scanExponent here cs = .ok (0, ⟨here, cs⟩) := by
  cases cs with
  | nil => rfl
  | cons c cs =>
      have hc : ¬ (decide (c = 'e') || decide (c = 'E')) = true := by simpa using h
      rw [scanExponent, if_neg hc]

theorem not_exponent_of_stops (h : stops c) : (decide (c = 'e') || decide (c = 'E')) = false := by
  rw [Bool.or_eq_false_iff, decide_eq_false_iff_not, decide_eq_false_iff_not]
  constructor <;>
  · rintro rfl
    exact absurd h (by decide)

theorem scanExponent_alike {n : Int} (h : scanExponent here cs = .ok (n, r)) :
    ∃ taken, cs = taken ++ r.chars ∧ ∀ here' rest', LooksLike r.chars rest' →
      ∃ r', scanExponent here' (taken ++ rest') = .ok (n, r') ∧ r'.chars = rest' := by
  cases hexp : cs.head?.any (fun c => c = 'e' || c = 'E') with
  | false =>
      cases (scanExponent_none hexp here).symm.trans h
      refine ⟨[], rfl, fun here' rest' ha => ⟨⟨here', rest'⟩, scanExponent_none ?_ here', rfl⟩⟩
      rwa [List.nil_append, ← ha.any_eq fun _ => not_exponent_of_stops]
  | true =>
      cases cs with
      | nil => cases hexp
      | cons c cs =>
          have hc : (decide (c = 'e') || decide (c = 'E')) = true := hexp
          rw [scanExponent, if_pos hc] at h
          obtain ⟨signed, hcs, hsigned⟩ := splitSign_alike cs
          dsimp only at h
          split at h
          · cases h
          · next hdigits =>
              cases h
              refine ⟨c :: (signed ++ (splitSign cs).2.takeWhile isDigit), ?_, fun here' rest' ha => ?_⟩
              · rw [List.cons_append, List.append_assoc, List.takeWhile_append_dropWhile, ← hcs]
              · obtain ⟨htake, hdrop⟩ := span_alike (fun _ => not_digit_of_stops) ha
                -- a digit follows the sign
                have hhead : (splitSign cs).2.head? =
                    ((splitSign cs).2.takeWhile isDigit ++ rest').head? := by
                  have hsplit := List.takeWhile_append_dropWhile (p := isDigit) (l := (splitSign cs).2)
                  have hne : (splitSign cs).2.takeWhile isDigit ≠ [] := fun he => hdigits (by rw [he]; rfl)
                  obtain ⟨d, ds, hd⟩ := List.exists_cons_of_ne_nil hne
                  rw [hd] at hsplit ⊢
                  rw [← hsplit]
                  rfl
                rw [List.cons_append, List.append_assoc, scanExponent, if_pos hc, hsigned _ hhead]
                simp only [htake, hdrop]
                rw [if_neg hdigits]
                exact ⟨_, rfl, rfl⟩

theorem delivers_scanDecimal (h : LooksLike rest rest')
    (hx : Delivers l rest (scanDecimal start (body ++ rest))) :
    Delivers l rest' (scanDecimal start' (body ++ rest')) := by
  obtain ⟨t, r, hx, rfl, rfl⟩ := hx
  generalize hcs : body ++ r.chars = cs at hx
  unfold scanDecimal at hx
  dsimp only at hx
  obtain ⟨⟨n, r⟩, he, hx⟩ := bind_eq_ok.1 hx
  dsimp only at hx
  split at hx
  · cases hx
  · next hname =>
      cases hx
      obtain ⟨fraction, hmid, hfraction⟩ := splitFraction_alike (cs.dropWhile isDigit)
      obtain ⟨exponent, hend, hexponent⟩ := scanExponent_alike he
      have hbody : body = cs.takeWhile isDigit ++ (fraction ++ exponent) := by
        refine List.append_cancel_right (hcs.trans ?_)
        rw [List.append_assoc, List.append_assoc, ← hend, ← hmid, List.takeWhile_append_dropWhile]
      have hmid' : LooksLike (cs.dropWhile isDigit) (fraction ++ (exponent ++ rest')) := by
        rw [hmid, hend]
        exact (h.append exponent).append fraction
      obtain ⟨htake, hdrop⟩ := span_alike (fun _ => not_digit_of_stops) hmid'
      have hpart := hfraction (exponent ++ rest') (by rw [hend]; exact h.append exponent)
      obtain ⟨r', he', rfl⟩ := hexponent (start' + (cs.takeWhile isDigit).length +
        if (splitFraction (cs.dropWhile isDigit)).1.isSome then
          1 + ((splitFraction (cs.dropWhile isDigit)).1.getD []).length else 0) rest' h
      rw [h.any_eq fun _ => not_nameStart_of_stops] at hname
      refine ⟨⟨start', r'.offset, _⟩, r', ?_, rfl, rfl⟩
      rw [hbody, List.append_assoc, List.append_assoc]
      unfold scanDecimal
      dsimp only
      rw [htake, hdrop, hpart]
      dsimp only
      rw [he']
      show (if _ then _ else _) = _
      rw [if_neg hname]

theorem scanNumber_decimal (hx : ∀ cs', cs ≠ '0' :: 'x' :: cs') (hX : ∀ cs', cs ≠ '0' :: 'X' :: cs') :
    scanNumber start cs = scanDecimal start cs := by
  unfold scanNumber
  split
  · next cs' => exact absurd rfl (hx cs')
  · next cs' => exact absurd rfl (hX cs')
  · rfl

theorem length_of_scanHex (hx : Delivers l rest (scanHex start cs)) : rest.length ≤ cs.length := by
  obtain ⟨t, r, hx, -, rfl⟩ := hx
  unfold scanHex at hx
  dsimp only at hx
  split at hx
  · cases hx
  · cases hx
    exact (List.dropWhile_sublist isHexDigit).length_le

theorem delivers_scanNumber (h : LooksLike rest rest')
    (hx : Delivers l rest (scanNumber start (c :: (body ++ rest)))) :
    Delivers l rest' (scanNumber start' (c :: (body ++ rest'))) := by
  cases body with
  | cons d body =>
      rw [List.cons_append] at hx ⊢
      unfold scanNumber at hx ⊢
      split at hx
      · next hcons =>
          cases hcons
          exact delivers_scanHex h hx
      · next hcons =>
          cases hcons
          exact delivers_scanHex h hx
      · next hx' hX' =>
          split
          · next hcons =>
              cases hcons
              exact absurd rfl (hx' _)
          · next hcons =>
              cases hcons
              exact absurd rfl (hX' _)
          · exact @delivers_scanDecimal _ _ (c :: d :: body) _ _ _ h hx
  | nil =>
      -- one digit is no hexadecimal number, with either rest
      rw [List.nil_append] at hx ⊢
      have hletter {x : Char} (hstops : stops x = false) (hrest : ∀ cs', rest ≠ x :: cs') :
          ∀ cs', rest' ≠ x :: cs' := by
        rintro cs' rfl
        rcases h with h | ⟨-, h, -⟩
        · obtain ⟨cs, rfl⟩ := List.head?_eq_some_iff.1 h
          exact hrest cs rfl
        · rw [Stops, List.head?_cons, Option.all_some, hstops] at h
          cases h
      by_cases hc : c = '0'
      · subst hc
        have hx' : ∀ cs', rest ≠ 'x' :: cs' := by
          rintro cs' rfl
          exact Nat.not_succ_le_self _ (length_of_scanHex hx)
        have hX' : ∀ cs', rest ≠ 'X' :: cs' := by
          rintro cs' rfl
          exact Nat.not_succ_le_self _ (length_of_scanHex hx)
        rw [scanNumber_decimal (fun cs' he => hx' cs' (List.cons.inj he).2)
          (fun cs' he => hX' cs' (List.cons.inj he).2)] at hx
        rw [scanNumber_decimal (fun cs' he => hletter (by decide) hx' cs' (List.cons.inj he).2)
          (fun cs' he => hletter (by decide) hX' cs' (List.cons.inj he).2)]
        exact @delivers_scanDecimal _ _ ['0'] _ _ _ h hx
      · rw [scanNumber_decimal (fun cs' he => hc (List.cons.inj he).1)
          (fun cs' he => hc (List.cons.inj he).1)] at hx ⊢
        exact @delivers_scanDecimal _ _ [c] _ _ _ h hx

theorem hexEscape?_congr {width : Nat} {cs' : List Char} (h : cs.take width = cs'.take width) :
    hexEscape? width cs = hexEscape? width cs' := by
  unfold hexEscape?
  rw [h]

theorem hexEscape?_match {width taken : Nat} {added cs' : List Char} {fault : ScriptFault}
    (h : (match hexEscape? width cs with
      | some e => .ok ([e], width + 1)
      | none => .error fault) = Except.ok (added, taken))
    (hfront : cs.take taken = cs'.take taken) :
    (match hexEscape? width cs' with
      | some e => .ok ([e], width + 1)
      | none => .error fault) = Except.ok (added, taken) := by
  cases he : hexEscape? width cs with
  | none => simp [he] at h
  | some e =>
      rw [he] at h
      cases h
      have htake := congrArg (List.take width) hfront
      rw [List.take_take, List.take_take, Nat.min_eq_left (Nat.le_succ width)] at htake
      rw [← hexEscape?_congr htake, he]

theorem escape?_congr {added cs' : List Char} {taken : Nat} (h : escape? cs = .ok (added, taken))
    (htaken : taken < cs.length) (hfront : cs.take (taken + 1) = cs'.take (taken + 1)) :
    escape? cs' = .ok (added, taken) := by
  cases cs with
  | nil => cases h
  | cons c cs =>
      cases cs' with
      | nil => cases hfront
      | cons c' cs' =>
          rw [List.take_succ_cons, List.take_succ_cons] at hfront
          obtain ⟨rfl, hbehind⟩ := List.cons.inj hfront
          -- where the escape looks at the character behind it, it leaves that character
          have hhead (h : 0 < taken) : cs.head? = cs'.head? := by
            have hhead := congrArg List.head? hbehind
            rwa [List.head?_take, List.head?_take, if_neg (Nat.ne_of_gt h), if_neg (Nat.ne_of_gt h)] at hhead
          unfold escape? at h ⊢
          dsimp only at h ⊢
          cases hletter : letterEscapes.lookup c with
          | some e =>
              rw [hletter] at h
              exact h
          | none =>
              rw [hletter] at h
              dsimp only at h ⊢
              by_cases hzero : c = '0'
              · rw [if_pos hzero] at h ⊢
                cases h
                rw [hhead Nat.one_pos]
              · rw [if_neg hzero] at h ⊢
                by_cases hu : c = 'u'
                · rw [if_pos hu] at h ⊢
                  exact hexEscape?_match h hbehind
                · rw [if_neg hu] at h ⊢
                  by_cases hx : c = 'x'
                  · rw [if_pos hx] at h ⊢
                    exact hexEscape?_match h hbehind
                  · rw [if_neg hx] at h ⊢
                    by_cases hreturn : c = '\r'
                    · rw [if_pos hreturn] at h ⊢
                      rw [← hhead]
                      · exact h
                      · cases h
                        split <;> decide
                    · rw [if_neg hreturn] at h ⊢
                      exact h

theorem lt_of_scanText {quote : Char} {taken : Nat} {value : List Char}
    (h : scanText quote start taken here cs = .ok (value, r)) : taken + r.chars.length < cs.length := by
  fun_induction scanText quote start taken here cs generalizing value with
  | case1 | case3 | case6 | case7 => cases h
  | case2 taken here c cs ih =>
      have := ih h
      rw [List.length_cons]
      omega
  | case4 here cs hc =>
      cases h
      simp
  | case5 here cs added taken hescape hbreak hquote ih =>
      obtain ⟨⟨value', r'⟩, hs, h⟩ := bind_eq_ok.1 h
      cases h
      have := ih hs
      rw [List.length_cons]
      omega
  | case8 here c cs hbreak hquote hslash ih =>
      obtain ⟨⟨value', r'⟩, hs, h⟩ := bind_eq_ok.1 h
      cases h
      have := ih hs
      rw [List.length_cons]
      omega

theorem scanText_alike {quote : Char} {taken : Nat} {value : List Char}
    (h : scanText quote start taken here (body ++ rest) = .ok (value, r)) (hr : r.chars = rest)
    (start' here' : Nat) (rest' : List Char) :
    ∃ r', scanText quote start' taken here' (body ++ rest') = .ok (value, r') ∧ r'.chars = rest' := by
  induction body generalizing taken here here' value r with
  | nil =>
      have := lt_of_scanText h
      rw [hr, List.nil_append] at this
      omega
  | cons c body ih =>
      rw [List.cons_append] at h ⊢
      cases taken with
      | succ taken => exact ih h hr _
      | zero =>
          rw [scanText] at h ⊢
          split_ifs at h ⊢ with hbreak hquote hslash
          · cases h
            have hbody : body = [] := List.append_left_eq_self.1 hr
            exact ⟨⟨here' + 1, rest'⟩, by rw [hbody]; rfl, rfl⟩
          · split at h
            · next added taken hescape =>
                obtain ⟨⟨value', r'⟩, hs, h⟩ := bind_eq_ok.1 h
                cases h
                obtain ⟨r'', hs', hr'⟩ := ih hs hr (here' + 1)
                have hlt : taken < body.length := by
                  have := lt_of_scanText hs
                  rw [hr, List.length_append] at this
                  omega
                have hescape' : escape? (body ++ rest') = .ok (added, taken) := by
                  refine escape?_congr hescape (by rw [List.length_append]; omega) ?_
                  rw [List.take_append_of_le_length hlt, List.take_append_of_le_length hlt]
                refine ⟨r'', ?_, hr'⟩
                rw [hescape']
                simp only [hs']
                rfl
            · cases h
            · cases h
          · obtain ⟨⟨value', r'⟩, hs, h⟩ := bind_eq_ok.1 h
            cases h
            obtain ⟨r'', hs', hr'⟩ := ih hs hr (here' + c.utf8Size)
            exact ⟨r'', by rw [hs']; rfl, hr'⟩

theorem operators_prefix :
    ∀ op ∈ operators, ∀ cs ∈ op.toList.inits, cs ≠ [] → String.ofList cs ∈ operators := by
  decide

theorem not_mem_tail_of_stops (h : stops c) : ∀ op ∈ operators, c ∉ op.toList.tail := by
  simp only [stops, Bool.and_eq_true, List.all_eq_true, Bool.not_eq_true', List.contains_eq_mem,
    decide_eq_false_iff_not] at h
  exact h.2

/-- An operator that reaches beyond the longest one goes on with a character that is not there. -/
theorem prefix_of_longest {op op' : String} (hop' : op' ∈ operators) (hne : op.toList ≠ [])
    (hlongest : ∀ op' ∈ operators, op'.toList <+: op.toList ++ rest → op'.length ≤ op.length)
    (hrest : rest.head? = cs.head? ∨ Stops cs) (hp : op'.toList <+: op.toList ++ cs) :
    op'.toList <+: op.toList := by
  rcases List.prefix_or_prefix_of_prefix hp (List.prefix_append op.toList cs) with h | ⟨tail, htail⟩
  · exact h
  · cases tail with
    | nil => exact ⟨[], by rw [← htail, List.append_nil, List.append_nil]⟩
    | cons d tail =>
        rw [← htail, List.prefix_append_right_inj] at hp
        obtain ⟨more, rfl⟩ : ∃ more, cs = d :: more := by
          obtain ⟨more, rfl⟩ := hp
          exact ⟨tail ++ more, rfl⟩
        have hnext : rest.head? = some d := by
          refine hrest.resolve_right fun hstops => ?_
          refine not_mem_tail_of_stops hstops op' hop' ?_
          obtain ⟨a, as, has⟩ := List.exists_cons_of_ne_nil hne
          rw [← htail, has]
          simp
        obtain ⟨more', rfl⟩ := List.head?_eq_some_iff.1 hnext
        have hlonger := operators_prefix op' hop' (op.toList ++ [d])
          ((List.mem_inits _ _).2 ⟨tail, by rw [← htail]; simp⟩) (by simp)
        have hle := hlongest _ hlonger (by rw [String.toList_ofList]; exact ⟨more', by simp⟩)
        rw [String.length_ofList, List.length_append, String.length_toList] at hle
        exact absurd hle (Nat.not_succ_le_self _)

theorem delivers_scanOperator (h : LooksLike rest rest')
    (hx : Delivers l rest (scanOperator start c (body ++ rest))) :
    Delivers l rest' (scanOperator start' c (body ++ rest')) := by
  obtain ⟨t, r, hx, rfl, hr⟩ := hx
  have hscanned := scanned_scanOperator hx
  unfold scanOperator at hx
  split at hx
  · next op hop =>
      cases hx
      obtain ⟨-, -, _, hne, ⟨hchars, -⟩, rfl, hmem, hlongest⟩ := hscanned
      rw [hr] at hchars hlongest
      obtain rfl := List.append_cancel_right hchars
      have hcut := fun op' hop' cs => @prefix_of_longest cs rest op op' hop' hne hlongest
      have hfind : (operators.find? fun op' => op'.toList.isPrefixOf (op.toList ++ rest')) = some op := by
        rw [← hop]
        refine List.find?_congr fun op' hop' => ?_
        rw [Bool.eq_iff_iff, List.isPrefixOf_iff_prefix, List.isPrefixOf_iff_prefix]
        constructor
        · exact fun hp => (hcut op' hop' rest' (h.imp_right fun h => h.2.1) hp).trans (List.prefix_append _ _)
        · exact fun hp => (hcut op' hop' rest (.inl rfl) hp).trans (List.prefix_append _ _)
      refine ⟨⟨start', start' + op.length, .operator op⟩, ⟨start' + op.length, rest'⟩, ?_, rfl, rfl⟩
      rw [scanOperator, hfind]
      simp only [← String.length_toList, List.drop_left]
  · cases hx

theorem delivers_scanToken (h : LooksLike rest rest')
    (hx : Delivers l rest (scanToken start c (body ++ rest))) :
    Delivers l rest' (scanToken start' c (body ++ rest')) := by
  have hdigit : (body ++ rest).head?.any isDigit = (body ++ rest').head?.any isDigit :=
    (h.append body).any_eq fun _ => not_digit_of_stops
  unfold scanToken at hx ⊢
  rw [← hdigit]
  split_ifs at hx ⊢ with hname hnumber hmark hquote
  · exact @delivers_scanName _ _ (c :: body) _ _ _ h hx
  · exact delivers_scanNumber h hx
  · obtain ⟨t, r, hx, rfl, hr⟩ := hx
    cases hx
    have hbody : body = [] := List.append_left_eq_self.1 hr
    exact ⟨_, _, rfl, rfl, by rw [hbody]; rfl⟩
  · obtain ⟨t, r, hx, rfl, hr⟩ := hx
    obtain ⟨⟨value, r'⟩, hs, hx⟩ := bind_eq_ok.1 hx
    cases hx
    obtain ⟨r'', hs', hr'⟩ := scanText_alike hs hr start' (start' + 1) rest'
    refine ⟨⟨start', r''.offset, .text (String.ofList value)⟩, r'', ?_, rfl, hr'⟩
    rw [hs']
    rfl
  · exact @delivers_scanOperator _ _ _ (c :: body) _ _ _ h hx

/-! Tokens in their places. -/

def Token.shift (k : Nat) (t : Token) : Token := { t with start := t.start + k, stop := t.stop + k }

theorem Token.shift_shift (j k : Nat) (t : Token) : (t.shift j).shift k = t.shift (k + j) := by
  simp only [Token.shift, Token.mk.injEq, and_true]
  omega

theorem map_shift_zero (ts : List Token) : ts.map (·.shift 0) = ts := List.map_id _

theorem map_shift (j k : Nat) (ts : List Token) :
    (ts.map (·.shift j)).map (·.shift k) = ts.map (·.shift (k + j)) := by
  simp only [List.map_map, Function.comp_def, Token.shift_shift]

/-- In any place, in front of what satisfies `P`, the text is cut into these tokens. Their offsets are
those in the text itself. -/
def Cut (P : List Char → Prop) (cs : List Char) (ts : List Token) : Prop :=
  ∀ here rest outcome, P rest → Scans (here + byteLength cs) rest outcome →
    Scans here (cs ++ rest) (outcome.map (ts.map (·.shift here) ++ ·))

variable {P Q : List Char → Prop} {cs' : List Char} {ts ts' : List Token}

theorem Cut.nil : Cut P [] [] := by
  intro here rest outcome _ h
  cases outcome <;> exact h

theorem Cut.mono (h : Cut P cs ts) (hP : ∀ rest, Q rest → P rest) : Cut Q cs ts :=
  fun here rest outcome hQ => h here rest outcome (hP rest hQ)

theorem Cut.append (h : Cut P cs ts) (h' : Cut Q cs' ts') (hP : ∀ rest, Q rest → P (cs' ++ rest)) :
    Cut Q (cs ++ cs') (ts ++ ts'.map (·.shift (byteLength cs))) := by
  intro here rest outcome hQ hrest
  rw [byteLength_append, ← Nat.add_assoc] at hrest
  have hs := h here (cs' ++ rest) _ (hP rest hQ) (h' _ rest outcome hQ hrest)
  rw [List.append_assoc, List.map_append, map_shift]
  have hmap (us vs : List Token) :
      (outcome.map (vs ++ ·)).map (us ++ ·) = outcome.map (us ++ vs ++ ·) := by
    cases outcome <;> simp [Except.map]
  rwa [hmap] at hs

theorem Cut.lexed (h : Cut P cs ts) : Lexed P cs (ts.map (·.lexeme)) := by
  intro here rest outcome hP hrest
  exact ⟨ts.map (·.shift here), by simp [Token.shift, Function.comp_def], h here rest outcome hP hrest⟩

/-! The scanner. -/

/-- A token that is a bracket or a separator, which nothing goes on with. -/
def Token.isMark (t : Token) : Bool := marks.any fun c => t.lexeme = .mark c

theorem cut_token (hskip : skip .blanks here cs = .ok ⟨start, c :: rest⟩)
    (ht : scanToken start c rest = .ok (t, r)) :
    ∃ front t₀, cs = front ++ r.chars ∧ r.offset = here + byteLength front ∧ t = t₀.shift here ∧
      t₀.stop = byteLength front ∧ front ≠ [] ∧
      Cut (fun more => t.isMark ∨ LooksLike r.chars more) front [t₀] := by
  obtain ⟨hslash, gap, rfl, hgap⟩ := skip_alike hskip
  cases hskip.symm.trans (hgap 0 here rest hslash)
  obtain ⟨hstart, hstop, slice, hne, ⟨hchars, hoffset⟩, hspells⟩ := scanned_scanToken ht
  obtain ⟨c', body, rfl⟩ := List.exists_cons_of_ne_nil hne
  obtain rfl := (List.cons.inj hchars).1
  have hrest : rest = body ++ r.chars := (List.cons.inj hchars).2
  refine ⟨gap ++ c :: body, ⟨byteLength gap, byteLength (gap ++ c :: body), t.lexeme⟩,
    ?_, ?_, ?_, rfl, ?_, ?_⟩
  · rw [hrest, List.append_assoc]
    rfl
  · rw [hoffset, byteLength_append, Nat.add_assoc]
  · obtain ⟨_, _, lexeme⟩ := t
    dsimp only at hstart hstop
    simp only [Token.shift, Token.mk.injEq, and_true]
    rw [hstart, hstop, hoffset, byteLength_append]
    omega
  · simp
  · intro here' rest' outcome hmore hscans
    have hdelivers : (c = '/' → ¬ OpensComment (body ++ rest')) ∧
        Delivers t.lexeme rest' (scanToken (here' + byteLength gap) c (body ++ rest')) := by
      rcases hmore with hmark | halike
      · obtain ⟨d, hd, hlexeme⟩ := List.any_eq_true.1 hmark
        rw [decide_eq_true_eq] at hlexeme
        rw [hlexeme] at hspells
        cases hspells.1
        exact ⟨fun h => absurd h (marks_spec c hd).2.2.2.2, _, _, scanToken_mark hd _ _, hlexeme.symm, rfl⟩
      · have hdelivers : Delivers t.lexeme r.chars (scanToken (here + byteLength gap) c (body ++ r.chars)) :=
          ⟨t, r, by rw [← hrest]; exact ht, rfl, rfl⟩
        refine ⟨fun h ho => hslash h ?_, delivers_scanToken halike hdelivers⟩
        rw [hrest]
        exact (halike.append body).opensComment ho
    obtain ⟨hslash', t', r', ht', hlexeme, rfl⟩ := hdelivers
    obtain ⟨hstart', hstop', slice', -, ⟨hchars', hoffset'⟩, -⟩ := scanned_scanToken ht'
    have hslice : c :: body = slice' := List.append_cancel_right hchars'
    have hskip' := hgap 0 here' (body ++ r'.chars) hslash'
    have hend : r'.offset = here' + byteLength (gap ++ c :: body) := by
      rw [hoffset', ← hslice, byteLength_append, Nat.add_assoc]
    have ht₀ : t' = (⟨byteLength gap, byteLength (gap ++ c :: body), t.lexeme⟩ : Token).shift here' := by
      obtain ⟨_, _, lexeme⟩ := t'
      dsimp only at hstart' hstop' hlexeme
      simp only [Token.shift, Token.mk.injEq]
      rw [hstart', hstop', hend]
      exact ⟨Nat.add_comm _ _, Nat.add_comm _ _, hlexeme⟩
    rw [← hend] at hscans
    have hstep := Scans.token hskip' ht' hscans
    rw [List.append_assoc, List.map_singleton, ← ht₀]
    exact hstep

/-- A text as its tokens and the gap behind them. -/
structure Splits (here : Nat) (cs : List Char) (ts : List Token) (front gap : List Char)
    (ts₀ : List Token) : Prop where
  chars : cs = front ++ gap
  tokens : ts = ts₀.map (·.shift here)
  stops : ∀ t ∈ ts₀, t.stop ≤ byteLength front
  empty : ts = [] ↔ front = []
  ends : ∃ here' stop, skip .blanks here' gap = .ok ⟨stop, []⟩
  cut : Cut (fun more => ts.getLast?.any Token.isMark ∨ LooksLike gap more) front ts₀

/-- The tokens of a text are the same wherever it is copied to, in front of a rest that goes on with none
of them. -/
theorem exists_splits (h : Scans here cs (.ok ts)) : ∃ front gap ts₀, Splits here cs ts front gap ts₀ := by
  generalize ho : Except.ok ts = outcome at h
  induction h generalizing ts with
  | badGap | badToken => cases ho
  | @done here cs stop hskip =>
      cases ho
      exact ⟨[], cs, [], rfl, rfl, by simp, by simp, ⟨here, stop, hskip⟩, .nil⟩
  | @token here cs start c rest t r outcome hskip ht hr ih =>
      obtain _ | us := outcome
      · cases ho
      have ho : ts = t :: us := Except.ok.inj ho
      subst ho
      obtain ⟨front', gap, us₀, hs⟩ := ih rfl
      obtain ⟨first, t₀, hcs, hoffset, rfl, hstop, hne, hcut⟩ := cut_token hskip ht
      refine ⟨first ++ front', gap, t₀ :: us₀.map (·.shift (byteLength first)), ?_, ?_, ?_, ?_, hs.ends, ?_⟩
      · rw [hcs, hs.chars, List.append_assoc]
      · rw [List.map_cons, map_shift, hs.tokens, hoffset]
      · rw [byteLength_append]
        refine List.forall_mem_cons.2 ⟨by omega, List.forall_mem_map.2 fun u hu => ?_⟩
        have := hs.stops u hu
        dsimp only [Token.shift]
        omega
      · simp [hne]
      · by_cases hlast : us = []
        · -- the token is the last one
          have hus₀ : us₀ = [] := by simpa [hlast] using hs.tokens.symm
          have hfront := hs.empty.1 hlast
          rw [hs.chars, hfront, List.nil_append] at hcut
          rw [hus₀, hfront, hlast, List.append_nil]
          simpa using hcut
        · have hfront : front' ≠ [] := fun h => hlast (hs.empty.2 h)
          refine hcut.append (hs.cut.mono fun more hmore => ?_) fun more _ => ?_
          · rwa [List.getLast?_cons_of_ne_nil hlast] at hmore
          · rw [hs.chars]
            refine .inr (.of_head ?_)
            obtain ⟨d, ds, hd⟩ := List.exists_cons_of_ne_nil hfront
            rw [hd]
            rfl

/-- A source whose last token is a mark that ends where the source ends. -/
theorem lexed_of_tokenize {source : String} {i : Nat} (hc : c ∈ marks)
    (h : tokenize source = .ok (ts ++ [⟨i, byteLength source.toList, .mark c⟩])) :
    Lexed Anywhere source.toList (ts.map (·.lexeme) ++ [.mark c]) := by
  have hscans := scans_tokenize source
  rw [h] at hscans
  obtain ⟨front, gap, ts₀, hs⟩ := exists_splits hscans
  obtain rfl := hs.tokens.trans (map_shift_zero ts₀)
  -- the last token leaves no gap
  have hgap : gap = [] := by
    by_contra hne
    have hle := hs.stops ⟨i, byteLength source.toList, .mark c⟩ (by simp)
    have hlength := byteLength_append front gap
    rw [← hs.chars] at hlength
    have := byteLength_pos hne
    dsimp only at hle
    omega
  have hcut := hs.cut.lexed
  rw [hs.chars, hgap, List.append_nil]
  rw [List.map_append] at hcut
  refine hcut.mono fun _ _ => .inl ?_
  simp [Token.isMark, hc]

end TwinView.Script
