import TwinView.Java.Source
import TwinView.Proofs.Java.Escapes

/-!
Comments of Java code. The end of a comment is broken up where its two characters stand in the text;
but escapes of code units are replaced before comments are looked for, and they can spell an end of a
comment, or be cut short.
-/

namespace TwinView.Java

open Text Code

variable {c : Char} {cs : List Char} {odd : Bool} {us : List CodeUnit} {r : Reading}

/-- Whether the first end of a comment in the text is the end of the text. -/
def endsFirst : List Nat → Bool
  | u :: v :: rest => if u = '*'.toNat ∧ v = '/'.toNat then rest.isEmpty else endsFirst (v :: rest)
  | _ => false

/-- Whether a text is one block comment: its escapes are replaced, and behind its opening there is an end
of a comment at its own end, and no other. -/
def isBlockComment (s : String) : Bool :=
  match (translate s).map codes with
  | some (u :: v :: rest) => u = '/'.toNat && v = '*'.toNat && endsFirst rest
  | _ => false

/-- Whether an end of a comment stands in the text that an escape has a part in. -/
def spellsEnd : List CodeUnit → Bool
  | star :: slash :: rest =>
    (star.code = '*'.toNat && slash.code = '/'.toNat && (star.spelled || slash.spelled)) ||
      spellsEnd (slash :: rest)
  | _ => false

def breakEnds : List Char → List Char
  | '*' :: '/' :: rest => '*' :: '\\' :: '/' :: breakEnds rest
  | c :: rest => c :: breakEnds rest
  | [] => []

theorem replaceFrom_eq_breakEnds (cs : List Char) :
    replaceFrom ['*', '/'] ['*', '\\', '/'] 0 cs = breakEnds cs := by
  fun_induction breakEnds cs with
  | case1 rest ih => simp [replaceFrom, ih]
  | case2 c rest hend ih =>
      have hprefix : ¬ ['*', '/'] <+: c :: rest := by
        rintro ⟨behind, heq⟩
        simp only [List.cons_append, List.nil_append, List.cons.injEq] at heq
        exact hend behind heq.1.symm heq.2.symm
      simp [replaceFrom, ih, List.isPrefixOf_iff_prefix, hprefix]
  | case3 => rfl

/-- The same for code units, of which only those that stand in the text are seen. -/
def breakUnits : List CodeUnit → List CodeUnit
  | ⟨42, false⟩ :: ⟨47, false⟩ :: rest => ⟨42, false⟩ :: ⟨92, false⟩ :: ⟨47, false⟩ :: breakUnits rest
  | u :: rest => u :: breakUnits rest
  | [] => []

theorem breakUnits_cons {u : CodeUnit} (h : u = ⟨42, false⟩ → ∀ rest, us ≠ ⟨47, false⟩ :: rest) :
    breakUnits (u :: us) = u :: breakUnits us := by
  rw [breakUnits]
  exact fun rest hu hus => h hu rest hus

theorem breakUnits_plainUnits (h : c = '*' → ∀ rest, us ≠ ⟨47, false⟩ :: rest) :
    breakUnits (plainUnits c ++ us) = plainUnits c ++ breakUnits us := by
  obtain ⟨-, hc, -⟩ | ⟨high, low, hc, hhigh, -, hlow, -⟩ := utf16Units_cases c
  · rw [plainUnits, hc]
    exact breakUnits_cons fun hu => h (Char.toNat_inj.1 (CodeUnit.mk.inj hu).1)
  · have hne {n : Nat} (hn : 0xD800 ≤ n) : (⟨n, false⟩ : CodeUnit) ≠ ⟨42, false⟩ := fun heq => by
      have := (CodeUnit.mk.inj heq).1
      omega
    rw [plainUnits, hc]
    simp only [List.map_cons, List.map_nil, List.cons_append, List.nil_append]
    rw [breakUnits_cons fun hu => absurd hu (hne hhigh), breakUnits_cons fun hu => absurd hu (hne (by omega))]

theorem spelled_of_translateFrom (h : translateFrom r cs = some us) (hr : ∀ odd, r ≠ .character odd) :
    ∃ code rest, us = ⟨code, true⟩ :: rest := by
  induction cs generalizing r with
  | nil =>
      cases r with
      | character odd => exact absurd rfl (hr odd)
      | marker => cases h
      | digit left value => cases h
  | cons c cs ih =>
      cases r with
      | character odd => exact absurd rfl (hr odd)
      | marker =>
          rw [translateFrom] at h
          split at h
          · exact ih h (by simp)
          · split at h
            · exact ih h (by simp)
            · cases h
      | digit left value =>
          cases left with
          | zero =>
              rw [translateFrom] at h
              split at h
              · obtain ⟨rest, -, rfl⟩ := Option.map_eq_some_iff.1 h
                exact ⟨_, rest, rfl⟩
              · cases h
          | succ left =>
              rw [translateFrom] at h
              split at h
              · exact ih h (by simp)
              · cases h

theorem head_of_translateFrom (h : translateFrom (.character odd) cs = some (⟨47, false⟩ :: us)) :
    cs.head? = some '/' := by
  cases cs with
  | nil => cases h
  | cons c cs =>
      rw [translateFrom] at h
      split at h
      · obtain ⟨code, rest, heq⟩ := spelled_of_translateFrom h (by simp)
        cases heq
      · obtain ⟨ws, -, heq⟩ := Option.map_eq_some_iff.1 h
        have hcodes : utf16Units c ++ codes ws = utf16Units '/' ++ codes us := by
          rw [← codes_plainUnits, ← codes_append, heq]
          rfl
        rw [(utf16Units_append_inj hcodes).1]
        rfl

theorem breakUnits_translated (h : translateFrom (.character odd) cs = some us)
    (hend : c = '*' → ∀ rest, cs ≠ '/' :: rest) :
    breakUnits (plainUnits c ++ us) = plainUnits c ++ breakUnits us := by
  refine breakUnits_plainUnits fun hc behind hus => ?_
  have hslash := head_of_translateFrom (hus ▸ h)
  cases cs with
  | nil => cases hslash
  | cons d cs => exact hend hc cs (by rw [Option.some.inj hslash])

theorem head?_breakEnds (cs : List Char) :
    (breakEnds cs ++ ['*', '/']).head? = some (cs.head?.getD '*') := by
  fun_cases breakEnds cs <;> rfl

/-- The end of a comment in the text is broken up in what is read as well, and the end behind it is
kept. -/
theorem translateFrom_breakEnds (r : Reading) (cs : List Char) :
    translateFrom r (breakEnds cs ++ ['*', '/']) =
      (translateFrom r cs).map (breakUnits · ++ [⟨42, false⟩, ⟨47, false⟩]) := by
  fun_induction breakEnds cs generalizing r with
  | case1 rest ih =>
      cases r with
      | character odd =>
          simp [translateFrom, ih, plainUnits, utf16Units, breakUnits, Function.comp_def]
      | marker => rfl
      | digit left value => cases left <;> rfl
  | case2 c rest hend ih =>
      cases r with
      | character odd =>
          have hnext : (breakEnds rest ++ ['*', '/']).head? = some 'u' ↔ rest.head? = some 'u' := by
            rw [head?_breakEnds]
            cases rest <;> simp
          rw [List.cons_append, translateFrom, translateFrom, ih, ih]
          simp only [hnext]
          split
          · rfl
          · cases hrest : translateFrom (.character (c = '\\' && !odd)) rest with
            | none => rfl
            | some us =>
                have hsplit := breakUnits_translated hrest fun hc rest hrest => hend rest hc hrest
                simp only [Option.map_some, hsplit, List.append_assoc]
      | marker =>
          rw [List.cons_append, translateFrom, translateFrom, ih, ih]
          split
          · rfl
          · split <;> rfl
      | digit left value =>
          cases left with
          | zero =>
              rw [List.cons_append, translateFrom, translateFrom, ih]
              split
              · rw [Option.map_map, Option.map_map]
                congr 1
                funext us
                rw [Function.comp, Function.comp, breakUnits_cons (by simp)]
                rfl
              · rfl
          | succ left =>
              rw [List.cons_append, translateFrom, translateFrom, ih]
              split <;> rfl
  | case3 =>
      cases r with
      | character odd => rfl
      | marker => rfl
      | digit left value => cases left <;> rfl

theorem endsFirst_cons_of_ne {u : Nat} {rest : List Nat} (h : u ≠ '*'.toNat) :
    endsFirst (u :: rest) = endsFirst rest := by
  cases rest with
  | nil => rfl
  | cons v rest => rw [endsFirst, if_neg fun heq => h heq.1]

theorem spellsEnd_cons_of_ne {u : CodeUnit} (h : u.code ≠ '*'.toNat) : spellsEnd (u :: us) = spellsEnd us := by
  cases us with
  | nil => rfl
  | cons v us => simp only [spellsEnd, decide_eq_false h, Bool.false_and, Bool.false_or]

theorem head?_breakUnits (us : List CodeUnit) : (breakUnits us).head? = us.head? := by
  fun_cases breakUnits us <;> rfl

/-- Of the ends of a comment in the text, only those are left that an escape has a part in. -/
theorem endsFirst_breakUnits (us : List CodeUnit) :
    endsFirst (codes (breakUnits us) ++ ['*'.toNat, '/'.toNat]) = !spellsEnd us := by
  fun_induction breakUnits us with
  | case1 rest ih =>
      have hrest : spellsEnd (⟨42, false⟩ :: ⟨47, false⟩ :: rest) = spellsEnd rest := by
        rw [spellsEnd, spellsEnd_cons_of_ne (by decide)]
        simp
      rw [hrest, ← ih]
      simp only [codes_cons, List.cons_append]
      rw [endsFirst, if_neg (by decide), endsFirst_cons_of_ne (by decide), endsFirst_cons_of_ne (by decide)]
  | case2 u rest hend ih =>
      rw [codes_cons, List.cons_append]
      by_cases hstar : u.code = '*'.toNat
      · cases rest with
        | nil => rw [hstar]; rfl
        | cons v rest =>
            obtain ⟨behind, hbehind⟩ := List.head?_eq_some_iff.1 (head?_breakUnits (v :: rest))
            rw [hbehind, codes_cons, List.cons_append] at ih ⊢
            rw [endsFirst, spellsEnd]
            by_cases hslash : v.code = '/'.toNat
            · have hspelled : (u.spelled || v.spelled) = true := by
                refine Decidable.byContradiction fun hnot => ?_
                rw [Bool.not_eq_true, Bool.or_eq_false_iff] at hnot
                obtain rfl : v = ⟨47, false⟩ := CodeUnit.ext hslash hnot.2
                exact hend rest (CodeUnit.ext hstar hnot.1) rfl
              rw [if_pos ⟨hstar, hslash⟩, hspelled]
              simp [hstar, hslash]
            · rw [if_neg fun heq => hslash heq.2, ih, decide_eq_false hslash]
              simp
      · rw [endsFirst_cons_of_ne hstar, spellsEnd_cons_of_ne hstar, ih]
  | case3 => rfl

/-- A comment of the code is one comment in Java, unless an escape in its text is cut short or spells a
part of an end of a comment. -/
theorem isBlockComment_comment_iff (s : Settings) (depth : Nat) (inHead : Bool) (value : String) :
    isBlockComment (statementBody s depth inHead (.comment value)) ↔
      ∃ us, translate value = some us ∧ spellsEnd us = false := by
  have htext : (statementBody s depth inHead (.comment value)).toList =
      ['/', '*'] ++ (breakEnds value.toList ++ ['*', '/']) := by
    have hbody : statementBody s depth inHead (.comment value) = blockComment value := rfl
    simp [hbody, blockComment, replaceAll, replaceFrom_eq_breakEnds]
  have hopening : Translates ['/', '*'] (plainUnits '/' ++ plainUnits '*') :=
    (translates_self (by decide)).append (translates_self (by decide))
  rw [isBlockComment, translate, htext, hopening, translateFrom_breakEnds, translate]
  cases translateFrom (.character false) value.toList with
  | none => simp
  | some us =>
      have hcodes : codes (plainUnits '/' ++ plainUnits '*' ++ (breakUnits us ++ [⟨42, false⟩, ⟨47, false⟩])) =
          '/'.toNat :: '*'.toNat :: (codes (breakUnits us) ++ ['*'.toNat, '/'.toNat]) := by
        rw [codes_append, codes_append, codes_append, codes_plainUnits, codes_plainUnits]
        rfl
      rw [Option.map_some, Option.map_some, Option.map_some, hcodes]
      simpa using endsFirst_breakUnits us

/-- The text of the comment spells an asterisk in front of a slash. -/
theorem not_isBlockComment_spelled :
    ¬ isBlockComment (statementBody {} 1 false (.comment "a \\u002a/ b")) := by
  decide

end TwinView.Java
