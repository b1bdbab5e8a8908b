import TwinView.Markup
import TwinView.Proofs.Text.Digits

/-!
Encoded text read back. What would be markup is written as a reference to a character, and whoever reads
the references gets the text that was written, whatever it is. The reader has tables of its own and
knows nothing of the writer.
-/

namespace TwinView.Markup

open Text

/-- The names that references in content may use, and the characters that they stand for. -/
def entityNames : List (String × Char) := [
  ("amp", '&'), ("lt", '<'), ("gt", '>'), ("nbsp", '\u00A0'), ("copy", '\u00A9'), ("trade", '\u2122'),
  ("reg", '\u00AE'), ("eacute", '\u00E9'), ("hellip", '\u2026'), ("shy", '\u00AD'), ("middot", '\u00B7')]

/-- In a quoted value there is a name for the quotation mark as well. -/
def Place.entityNames : Place → List (String × Char)
  | .quotedValue => ("quot", '"') :: Markup.entityNames
  | .content | .comment => Markup.entityNames

/-- The character that a reference stands for, by what is between its ampersand and its semicolon. -/
def referred? (names : List (String × Char)) : List Char → Option Char
  | '#' :: 'x' :: digits =>
    if digits ≠ [] ∧ digits.all isHexDigit ∧ (hexNumber digits).isValidChar then
      some (Char.ofNat (hexNumber digits))
    else none
  | name => names.lookup (String.ofList name)

/-- The reference at the start of a text, of which the ampersand has been read: its character, and how
many characters the rest of it takes. -/
def reference? (names : List (String × Char)) (cs : List Char) : Option (Char × Nat) :=
  let body := cs.takeWhile (· ≠ ';')
  if body.length < cs.length then (referred? names body).map (·, body.length + 1) else none

/-- Reads the references in the rest of a text, of which the first `skip` characters belong to the last
reference found. An ampersand that starts no reference stands for itself. -/
def decodeFrom (names : List (String × Char)) : Nat → List Char → List Char
  | _, [] => []
  | skip + 1, _ :: rest => decodeFrom names skip rest
  | 0, c :: rest =>
    match if c = '&' then reference? names rest else none with
    | some (d, length) => d :: decodeFrom names length rest
    | none => c :: decodeFrom names 0 rest

def decode (names : List (String × Char)) (s : String) : String :=
  String.ofList (decodeFrom names 0 s.toList)

/-- Every ampersand in the text starts a reference, and with the references read the text is `s`. -/
structure ReadsAs (names : List (String × Char)) (written s : String) : Prop where
  decoded : decode names written = s
  references : ∀ before behind, written.toList = before ++ '&' :: behind →
    (reference? names behind).isSome

variable {names : List (String × Char)} {place : Place} {nonAscii closing : Bool} {c d : Char}
  {body cs rest : List Char}

def isInReference (c : Char) : Bool := c = '#' || isLetter c || isDigit c

theorem isInReference_of_isHexDigit (h : isHexDigit c) : isInReference c := by
  simp only [isHexDigit, isInReference, isLetter, Bool.or_eq_true, Bool.and_eq_true,
    decide_eq_true_eq] at h ⊢
  rcases h with (h | ⟨ha, hf⟩) | ⟨ha, hf⟩
  · exact .inr h
  · exact .inl (.inr (.inl ⟨ha, Char.le_trans hf (by decide)⟩))
  · exact .inl (.inr (.inr ⟨ha, Char.le_trans hf (by decide)⟩))

theorem plain_of_isInReference (h : isInReference c) :
    isPrintable c ∧ c ≠ '&' ∧ c ≠ '<' ∧ c ≠ '>' ∧ c ≠ '"' ∧ c ≠ ';' := by
  simp only [isInReference, isLetter, isDigit, Bool.or_eq_true, Bool.and_eq_true, decide_eq_true_eq] at h
  refine ⟨?_, ?_, ?_, ?_, ?_, ?_⟩
  · simp only [isPrintable, Bool.and_eq_true, decide_eq_true_eq]
    obtain (rfl | ⟨hl, hr⟩ | ⟨hl, hr⟩) | ⟨hl, hr⟩ := h
    · decide
    all_goals exact ⟨Char.le_trans (by decide) hl, Std.lt_of_le_of_lt hr (by decide)⟩
  all_goals
    rintro rfl
    revert h
    decide

/-- A reference to a character, which needs no markup inside. -/
structure Refers (names : List (String × Char)) (c : Char) (body : List Char) : Prop where
  referred : referred? names body = some c
  inside : body.all isInReference

theorem reference?_append (h : Refers names c body) (rest : List Char) :
    reference? names (body ++ ';' :: rest) = some (c, body.length + 1) := by
  have hbody : (body ++ ';' :: rest).takeWhile (· ≠ ';') = body := by
    rw [List.takeWhile_append_of_pos]
    · simp
    · intro d hd
      exact decide_eq_true (plain_of_isInReference (List.all_eq_true.1 h.inside d hd)).2.2.2.2.2
  rw [reference?, hbody, h.referred, if_pos]
  · rfl
  · simp

theorem decodeFrom_skip (body rest : List Char) :
    decodeFrom names body.length (body ++ rest) = decodeFrom names 0 rest := by
  induction body with
  | nil => rfl
  | cons c body ih => exact ih

theorem decodeFrom_reference (h : Refers names c body) (rest : List Char) :
    decodeFrom names 0 ('&' :: (body ++ ';' :: rest)) = c :: decodeFrom names 0 rest := by
  have hskip : decodeFrom names (body ++ [';']).length (body ++ [';'] ++ rest) = decodeFrom names 0 rest :=
    decodeFrom_skip _ _
  rw [List.append_assoc, List.length_append] at hskip
  rw [decodeFrom, if_pos rfl, reference?_append h]
  exact congrArg (c :: ·) hskip

theorem decodeFrom_plain (h : c ≠ '&') (rest : List Char) :
    decodeFrom names 0 (c :: rest) = c :: decodeFrom names 0 rest := by
  rw [decodeFrom, if_neg h]

theorem Refers.mono {names' : List (String × Char)} (h : Refers names c body)
    (hn : ∀ name c, names.lookup name = some c → names'.lookup name = some c) : Refers names' c body := by
  refine ⟨?_, h.inside⟩
  have hreferred := h.referred
  unfold referred? at hreferred ⊢
  split at hreferred
  · exact hreferred
  · exact hn _ _ hreferred

theorem lookup_entityNames (place : Place) {name : String} (h : entityNames.lookup name = some c) :
    place.entityNames.lookup name = some c := by
  cases place with
  | content | comment => exact h
  | quotedValue =>
      have hne : (name == "quot") = false := by
        rw [beq_eq_false_iff_ne]
        rintro rfl
        rw [show entityNames.lookup "quot" = none by decide] at h
        cases h
      rw [Place.entityNames, List.lookup_cons, hne]
      exact h

theorem refers_codePoint (c : Char) : Refers names c ('#' :: 'x' :: codePointHex c) := by
  obtain ⟨hne, hdigits, hnumber⟩ := codePointHex_spec c
  refine ⟨?_, ?_⟩
  · rw [referred?, hnumber, if_pos ⟨hne, hdigits, c.valid⟩, Char.ofNat_toNat]
  · rw [List.all_eq_true] at hdigits ⊢
    intro d hd
    obtain rfl | rfl | hd := by simpa only [List.mem_cons] using hd
    · decide
    · decide
    · exact isInReference_of_isHexDigit (hdigits d hd)

/-- How a character is written: as it is, or as a reference. -/
inductive WrittenAs (names : List (String × Char)) (c : Char) : List Char → Prop
  | plain (h : c ≠ '&') : WrittenAs names c [c]
  | reference {body : List Char} (h : Refers names c body) : WrittenAs names c ('&' :: (body ++ [';']))

theorem WrittenAs.mono {names' : List (String × Char)} (h : WrittenAs names c cs)
    (hn : ∀ name c, names.lookup name = some c → names'.lookup name = some c) : WrittenAs names' c cs := by
  cases h with
  | plain h => exact .plain h
  | reference h => exact .reference (h.mono hn)

theorem WrittenAs.decodeFrom (h : WrittenAs names c cs) (rest : List Char) :
    decodeFrom names 0 (cs ++ rest) = c :: decodeFrom names 0 rest := by
  cases h with
  | plain h => exact decodeFrom_plain h rest
  | reference h =>
      rw [List.cons_append, List.append_assoc]
      exact decodeFrom_reference h rest

/-- A character that belongs to how another one is written, and is not the other one itself, is no
markup. -/
theorem WrittenAs.mem (h : WrittenAs names c cs) (hd : d ∈ cs) :
    d = c ∧ cs = [c] ∨ isPrintable d ∧ d ≠ '<' ∧ d ≠ '>' ∧ d ≠ '"' := by
  cases h with
  | plain h => exact .inl ⟨List.mem_singleton.1 hd, rfl⟩
  | reference h =>
      refine .inr ?_
      obtain rfl | hd | rfl := by
        simpa only [List.mem_cons, List.mem_append, List.not_mem_nil, or_false] using hd
      · decide
      · obtain ⟨hp, -, hl, hg, hq, -⟩ := plain_of_isInReference (List.all_eq_true.1 h.inside d hd)
        exact ⟨hp, hl, hg, hq⟩
      · decide

theorem namedEntities_refer : ∀ p ∈ namedEntities, ∃ body, p.2.toList = '&' :: (body ++ [';']) ∧
    Refers entityNames p.1 body := by
  have hall : ∀ p ∈ namedEntities, p.2.toList = '&' :: ((p.2.toList.drop 1).dropLast ++ [';']) ∧
      referred? entityNames (p.2.toList.drop 1).dropLast = some p.1 ∧
        (p.2.toList.drop 1).dropLast.all isInReference := by
    decide
  intro p hp
  obtain ⟨htext, hreferred, hinside⟩ := hall p hp
  exact ⟨_, htext, hreferred, hinside⟩

theorem writtenAs_other (place : Place) (nonAscii : Bool) (h : c ≠ '&') :
    WrittenAs place.entityNames c (match namedEntities.lookup c with
      | some entity => entity.toList
      | none => if needsReference nonAscii c then '&' :: '#' :: 'x' :: codePointHex c ++ [';'] else [c]) := by
  split
  · next entity hentity =>
      obtain ⟨before, behind, hsplit, -⟩ := List.lookup_eq_some_iff.1 hentity
      obtain ⟨body, htext, hrefers⟩ := namedEntities_refer (c, entity) (by simp [hsplit])
      rw [htext]
      exact .reference (hrefers.mono fun _ _ => lookup_entityNames place)
  · split
    · exact .reference (refers_codePoint c)
    · exact .plain h

/-- A character is written as it is only where it cannot be taken for markup. -/
theorem writtenAs_encodeChar (hplace : place ≠ .comment) :
    WrittenAs place.entityNames c (encodeChar place nonAscii closing c) := by
  have hnamed (body : List Char) (h : Refers entityNames c body) :
      WrittenAs place.entityNames c ('&' :: (body ++ [';'])) :=
    .reference (h.mono fun _ _ => lookup_entityNames place)
  unfold encodeChar
  split
  · next htab =>
      refine .plain ?_
      rintro rfl
      simp [isTabOrBreak] at htab
  split
  · next hamp =>
      subst hamp
      exact hnamed "amp".toList ⟨by decide, by decide⟩
  next hamp =>
  split
  · next hlt =>
      subst hlt
      exact hnamed "lt".toList ⟨by decide, by decide⟩
  split
  · next hgt =>
      subst hgt
      rw [if_neg (by simp [hplace])]
      exact hnamed "gt".toList ⟨by decide, by decide⟩
  split
  · next hquot =>
      subst hquot
      split
      · next hvalue =>
          subst hvalue
          have hrefers : Refers Place.quotedValue.entityNames '"' "quot".toList :=
            ⟨by decide, by decide⟩
          exact .reference hrefers
      · exact .plain hamp
  · exact writtenAs_other place nonAscii hamp

/-- An ampersand in front of which a whole character is written starts the reference that the character
is written as, or comes later. -/
theorem WrittenAs.splits {before behind : List Char} (h : WrittenAs names c cs)
    (heq : cs ++ rest = before ++ '&' :: behind) :
    (reference? names behind).isSome ∨ ∃ more, rest = more ++ '&' :: behind := by
  obtain ⟨more, -, hrest⟩ | ⟨more, hcs, hbehind⟩ := List.append_eq_append_iff.1 heq
  · exact .inr ⟨more, hrest⟩
  cases more with
  | nil => exact .inr ⟨[], hbehind.symm⟩
  | cons d more =>
      obtain ⟨rfl, rfl⟩ := List.cons.inj hbehind
      cases h with
      | plain h => exact absurd (List.mem_singleton.1 (hcs ▸ by simp)) h.symm
      | @reference body h =>
          cases before with
          | nil =>
              obtain ⟨-, rfl⟩ := List.cons.inj hcs
              rw [List.append_eq, List.append_assoc, List.singleton_append, reference?_append h]
              exact .inl rfl
          | cons e before =>
              have hmem : '&' ∈ body ++ [';'] := (List.cons.inj hcs).2 ▸ by simp
              obtain hbody | hlast := List.mem_append.1 hmem
              · exact absurd rfl (plain_of_isInReference (List.all_eq_true.1 h.inside _ hbody)).2.1
              · exact absurd (List.mem_singleton.1 hlast) (by decide)

/-- What is written as it is has no meaning of its own in its place. -/
theorem encodeChar_self (hplace : place ≠ .comment) (h : encodeChar place nonAscii closing c = [c]) :
    c ≠ '<' ∧ c ≠ '>' ∧ (place = .quotedValue → c ≠ '"' ∧ (nonAscii → isPrintable c)) := by
  refine ⟨?_, ?_, ?_⟩
  · rintro rfl
    simp [encodeChar, isTabOrBreak, hplace] at h
  · rintro rfl
    simp [encodeChar, isTabOrBreak, hplace] at h
  · rintro rfl
    refine ⟨?_, fun hnonAscii => ?_⟩
    · rintro rfl
      simp [encodeChar, isTabOrBreak] at h
    · refine Decidable.byContradiction fun hprint => ?_
      have hother : c ≠ '&' ∧ c ≠ '<' ∧ c ≠ '>' ∧ c ≠ '"' := by
        refine ⟨?_, ?_, ?_, ?_⟩ <;> rintro rfl <;> exact hprint (by decide)
      obtain ⟨hamp, hlt, hgt, hquot⟩ := hother
      have hneeds : needsReference nonAscii c := by
        simp only [isPrintable, Bool.and_eq_true, decide_eq_true_eq, not_and, Char.not_lt] at hprint
        simp only [needsReference, hnonAscii, Bool.true_or, Bool.and_true, Bool.or_eq_true,
          decide_eq_true_eq]
        by_cases hlow : c < ' '
        · exact .inl (.inl (.inl hlow))
        · exact .inl (.inl (.inr (hprint (Char.not_lt.1 hlow))))
      rw [encodeChar, if_neg (by simp), if_neg hamp, if_neg hlt, if_neg hgt, if_neg hquot] at h
      split at h
      · next entity hentity =>
          obtain ⟨before, behind, hsplit, -⟩ := List.lookup_eq_some_iff.1 hentity
          obtain ⟨body, htext, -⟩ := namedEntities_refer (c, entity) (by simp [hsplit])
          rw [htext] at h
          simp at h
      · rw [if_pos hneeds] at h
        simp at h

theorem decodeFrom_encodeFrom (hplace : place ≠ .comment)
    (hn : ∀ name c, place.entityNames.lookup name = some c → names.lookup name = some c)
    (before last : Char) (cs : List Char) :
    decodeFrom names 0 (encodeFrom place nonAscii before last cs) = cs := by
  induction cs generalizing before last with
  | nil => rfl
  | cons c cs ih => rw [encodeFrom, ((writtenAs_encodeChar hplace).mono hn).decodeFrom, ih]

theorem reference?_encodeFrom (hplace : place ≠ .comment)
    (hn : ∀ name c, place.entityNames.lookup name = some c → names.lookup name = some c)
    {a b : Char} {cs before behind : List Char}
    (h : encodeFrom place nonAscii a b cs = before ++ '&' :: behind) :
    (reference? names behind).isSome := by
  induction cs generalizing a b before with
  | nil => simp [encodeFrom] at h
  | cons c cs ih =>
      obtain href | ⟨more, hmore⟩ := ((writtenAs_encodeChar hplace).mono hn).splits h
      · exact href
      · exact ih hmore

theorem readsAs_encode (hplace : place ≠ .comment)
    (hn : ∀ name c, place.entityNames.lookup name = some c → names.lookup name = some c) (s : String) :
    ReadsAs names (encode place nonAscii s) s := by
  refine ⟨?_, fun before behind h => ?_⟩
  · rw [decode, encode, String.toList_ofList, decodeFrom_encodeFrom hplace hn, String.ofList_toList]
  · rw [encode, String.toList_ofList] at h
    exact reference?_encodeFrom hplace hn h

/-- A character of an encoded text belongs to a reference, or is written as it is. -/
theorem mem_encodeFrom (hplace : place ≠ .comment) {a b : Char}
    (h : d ∈ encodeFrom place nonAscii a b cs) :
    (∃ closing, d ∈ cs ∧ encodeChar place nonAscii closing d = [d]) ∨
      isPrintable d ∧ d ≠ '<' ∧ d ≠ '>' ∧ d ≠ '"' := by
  induction cs generalizing a b with
  | nil => cases h
  | cons c cs ih =>
      obtain hchar | hrest := List.mem_append.1 h
      · obtain ⟨rfl, hself⟩ | hother := (writtenAs_encodeChar hplace).mem hchar
        · exact .inl ⟨_, .head _, hself⟩
        · exact .inr hother
      · obtain ⟨closing, hmem, hself⟩ | hother := ih hrest
        · exact .inl ⟨closing, .tail _ hmem, hself⟩
        · exact .inr hother

theorem mem_encode (hplace : place ≠ .comment) {s : String} (h : d ∈ (encode place nonAscii s).toList) :
    d ≠ '<' ∧ d ≠ '>' ∧ (place = .quotedValue → d ≠ '"' ∧ (nonAscii → isPrintable d)) := by
  rw [encode, String.toList_ofList] at h
  obtain ⟨closing, -, hself⟩ | ⟨hprint, hlt, hgt, hquot⟩ := mem_encodeFrom hplace h
  · exact encodeChar_self hplace hself
  · exact ⟨hlt, hgt, fun _ => ⟨hquot, fun _ => hprint⟩⟩

theorem mem_encodeFrom_of_self (hself : ∀ closing, encodeChar place nonAscii closing d = [d])
    (h : d ∈ cs) (a b : Char) : d ∈ encodeFrom place nonAscii a b cs := by
  induction h generalizing a b with
  | head rest => exact List.mem_append_left _ (hself _ ▸ .head _)
  | tail c _ ih => exact List.mem_append_right _ (ih b c)

theorem quote_mem_literal {s : String} : '"' ∈ (literal nonAscii s).toList ↔ '"' ∈ s.toList := by
  rw [literal, encode, String.toList_ofList]
  refine ⟨fun h => ?_, ?_⟩
  · obtain ⟨-, hmem, -⟩ | ⟨-, -, -, hquot⟩ := mem_encodeFrom (by decide) h
    · exact hmem
    · exact absurd rfl hquot
  · exact fun h => mem_encodeFrom_of_self (fun _ => by simp [encodeChar]) h _ _

/-- Encoding loses nothing and leaves no markup, in content and in the value of an attribute. -/
theorem encoded_readsBack (nonAscii : Bool) (s : String) :
    (ReadsAs Place.content.entityNames (literal nonAscii s) s ∧
      ∀ c ∈ (literal nonAscii s).toList, c ≠ '<' ∧ c ≠ '>') ∧
    ∀ name, ∃ quoted, wholeAttribute name (some s) = openAttribute name ++ quoted ++ closeAttribute ∧
      ReadsAs Place.quotedValue.entityNames quoted s ∧
      ∀ c ∈ quoted.toList, isPrintable c ∧ c ≠ '"' ∧ c ≠ '<' ∧ c ≠ '>' := by
  refine ⟨⟨readsAs_encode (by decide) (fun _ _ => id) s, fun c hc => ?_⟩, fun name => ?_⟩
  · obtain ⟨hlt, hgt, -⟩ := mem_encode (by decide) hc
    exact ⟨hlt, hgt⟩
  · refine ⟨_, rfl, readsAs_encode (by decide) (fun _ _ => id) s, fun c hc => ?_⟩
    obtain ⟨hlt, hgt, hquoted⟩ := mem_encode (by decide) hc
    obtain ⟨hquot, hprint⟩ := hquoted rfl
    exact ⟨hprint rfl, hquot, hlt, hgt⟩

end TwinView.Markup
