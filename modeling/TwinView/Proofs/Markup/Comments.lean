import TwinView.Proofs.Markup.References
import TwinView.Proofs.Text.Infix

/-!
Comments of the markup. The end of a comment is broken up wherever its three characters stand in the
text; but the hyphens that open the comment count for whoever reads it, and not for the writer.
-/

namespace TwinView.Markup

open Text

variable {nonAscii closing : Bool} {c x y before last : Char} {cs rest : List Char}

def commentEnd : List Char := ['-', '-', '>']

/-- The text ends with the end of a comment, which stands nowhere else in it. -/
structure ClosesOnce (s : String) : Prop where
  closes : commentEnd <:+ s.toList
  once : ∀ before behind, s.toList = before ++ commentEnd ++ behind → behind = []

/-- A character is written as it is, a `>` only if no two hyphens stand in front of it; or else its text
has no `>` and ends in a semicolon. -/
theorem encodeChar_comment (nonAscii closing : Bool) (c : Char) :
    (encodeChar .comment nonAscii closing c = [c] ∧ (c = '>' → closing = false)) ∨
      ∃ body, encodeChar .comment nonAscii closing c = body ++ [';'] ∧ '>' ∉ body := by
  by_cases hlt : c = '<'
  · subst hlt
    exact .inl ⟨by simp [encodeChar], fun h => absurd h (by decide)⟩
  by_cases hgt : c = '>'
  · subst hgt
    cases closing with
    | false => exact .inl ⟨by simp [encodeChar], fun _ => rfl⟩
    | true => exact .inr ⟨"&gt".toList, by simp [encodeChar, isTabOrBreak], by decide⟩
  have hcontent : encodeChar .comment nonAscii closing c = encodeChar .content nonAscii closing c := by
    rw [encodeChar, encodeChar]
    simp only [if_neg hlt, if_neg hgt]
    rfl
  have hwritten : WrittenAs Place.content.entityNames c (encodeChar .content nonAscii closing c) :=
    writtenAs_encodeChar (by decide)
  rw [hcontent]
  generalize encodeChar .content nonAscii closing c = cs at hwritten
  cases hwritten with
  | plain _ => exact .inl ⟨rfl, fun h => absurd h hgt⟩
  | @reference body h =>
      refine .inr ⟨'&' :: body, rfl, fun hmem => ?_⟩
      obtain hamp | hbody := List.mem_cons.1 hmem
      · exact absurd hamp (by decide)
      · exact (plain_of_isInReference (List.all_eq_true.1 h.inside _ hbody)).2.2.2.1 rfl

/-- An end of a comment across one character stands right there, or goes on behind what the character is
written as, of which the last two characters count. -/
theorem infix_encodeChar (h : commentEnd <:+: x :: y :: (encodeChar .comment nonAscii closing c ++ rest)) :
    (x = '-' ∧ y = '-' ∧ c = '>' ∧ closing = false) ∨
      ∃ x' y', (y' = '-' → c = '-') ∧ (x' = '-' → y' = '-' → y = '-') ∧
        commentEnd <:+: x' :: y' :: rest := by
  obtain ⟨hself, hopen⟩ | ⟨body, hbody, hgt⟩ := encodeChar_comment nonAscii closing c
  · rw [hself, List.singleton_append, List.infix_cons_iff] at h
    obtain hpre | hin := h
    · obtain ⟨hx, hy, hc⟩ : '-' = x ∧ '-' = y ∧ '>' = c := by simpa [commentEnd] using hpre
      exact .inl ⟨hx.symm, hy.symm, hc.symm, hopen hc.symm⟩
    · exact .inr ⟨y, c, id, fun hy _ => hy, hin⟩
  · rw [hbody, List.append_assoc, ← List.cons_append, ← List.cons_append, List.singleton_append,
      infix_append_cons (by decide) (by decide)] at h
    obtain ⟨as, bs, hfront⟩ | hrest := h
    · -- the `>` is the third character at the earliest, and the body has none
      have hdrop : body = (as ++ commentEnd ++ bs).drop 2 := by rw [hfront]; rfl
      refine absurd (hdrop ▸ ?_) hgt
      rcases as with _ | ⟨a, _ | ⟨b, as⟩⟩ <;> simp [commentEnd]
    · exact .inr ⟨';', ';', fun h => absurd h (by decide), fun h => absurd h (by decide),
        List.infix_cons (List.infix_cons hrest)⟩

/-- The hyphens at the end of what is written are those at the end of what has been read. The other
direction fails behind a reference, which ends in a semicolon. -/
structure InStep (x y before last : Char) : Prop where
  last : y = '-' → last = '-'
  both : x = '-' → y = '-' → before = '-'

/-- As long as the two are in step, the writer sees each end of a comment coming. -/
theorem InStep.not_infix (h : InStep x y before last) :
    ¬ commentEnd <:+: x :: y :: (encodeFrom .comment nonAscii before last cs ++ ['-', '-']) := by
  induction cs generalizing x y before last with
  | nil => simp [commentEnd, encodeFrom, List.infix_cons_iff]
  | cons c cs ih =>
      intro hin
      rw [encodeFrom, List.append_assoc] at hin
      obtain ⟨hx, hy, -, hclosing⟩ | ⟨x', y', hlast, hboth, hrest⟩ := infix_encodeChar hin
      · simp [h.last hy, h.both hx hy] at hclosing
      · exact ih ⟨hlast, fun hx hy => h.last (hboth hx hy)⟩ hrest

theorem closesOnce_iff {s : String} (h : s.toList = cs ++ commentEnd) :
    ClosesOnce s ↔ ¬ commentEnd <:+: cs ++ ['-', '-'] := by
  constructor
  · rintro ⟨-, honce⟩ ⟨before, behind, heq⟩
    have hs : s.toList = before ++ commentEnd ++ (behind ++ ['>']) := by
      rw [h, ← List.append_assoc, heq, List.append_assoc]
      rfl
    simpa using honce _ _ hs
  · refine fun hin => ⟨⟨cs, h.symm⟩, fun before behind hs => ?_⟩
    obtain rfl | ⟨front, z, rfl⟩ := List.eq_nil_or_concat behind
    · rfl
    · refine absurd ⟨before, front, ?_⟩ hin
      have hfront : (cs ++ ['-', '-']) ++ ['>'] = (before ++ commentEnd ++ front) ++ [z] := by
        rw [h] at hs
        simpa [commentEnd] using hs
      exact (List.append_inj' hfront rfl).1.symm

/-- A comment ends at its own end only, unless its text and the hyphens that open it make another. -/
theorem closesOnce_comment_iff (s : String) :
    ClosesOnce (comment s) ↔ ¬ (['>'] <+: s.toList ∨ ['-', '>'] <+: s.toList) := by
  have htext : (comment s).toList = '<' :: '!' :: '-' :: '-' ::
      encodeFrom .comment false '\x00' '\x00' s.toList ++ commentEnd := by
    simp [comment, encode, commentEnd]
  rw [closesOnce_iff htext, not_iff_not]
  simp only [List.cons_append]
  rw [List.infix_cons_iff, List.infix_cons_iff, or_iff_right (by simp [commentEnd]),
    or_iff_right (by simp [commentEnd])]
  generalize s.toList = cs
  constructor
  · intro hin
    refine Decidable.byContradiction fun hstart => ?_
    obtain ⟨hgt, hhyphen⟩ := not_or.1 hstart
    -- the writer is out of step with the two hyphens of the opening until it has read two characters
    cases cs with
    | nil => simp [commentEnd, encodeFrom, List.infix_cons_iff] at hin
    | cons c cs =>
        rw [encodeFrom, List.append_assoc] at hin
        obtain ⟨-, -, rfl, -⟩ | ⟨x, y, hlast, -, hin⟩ := infix_encodeChar hin
        · exact hgt (by simp)
        by_cases hc : c = '-'
        · subst hc
          cases cs with
          | nil => simp [commentEnd, encodeFrom, List.infix_cons_iff] at hin
          | cons d cs =>
              rw [encodeFrom, List.append_assoc] at hin
              obtain ⟨-, -, rfl, -⟩ | ⟨x', y', hlast', -, hin⟩ := infix_encodeChar hin
              · exact hhyphen (by simp)
              · exact InStep.not_infix ⟨hlast', fun _ _ => rfl⟩ hin
        · exact InStep.not_infix ⟨hlast, fun _ hy => absurd (hlast hy) hc⟩ hin
  · rintro (⟨rest, rfl⟩ | ⟨rest, rfl⟩)
    · exact ⟨[], _, rfl⟩
    · exact ⟨['-'], _, rfl⟩

/-- The comment of `> top` is empty for whoever reads it: `<!-->` opens and closes it. -/
theorem not_closesOnce_arrow : ¬ ClosesOnce (comment "> top") := by
  rintro ⟨-, honce⟩
  have h := honce "<!".toList " top-->".toList (by decide)
  simp at h

end TwinView.Markup
