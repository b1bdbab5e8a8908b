import TwinView.Proofs.Script.Trimming
import TwinView.Proofs.Template.Mentions

/-!
How a fragment is read in its client function. The function has the tokens of its opening, those of the
fragment and those of its closing, unless the fragment ends in a line comment: the closing is on the
same line, and is lost.
-/

namespace TwinView

open Text Script

variable {b : CodeBlock} {s : String} {ts : List Token}

/-- The client function is read as its opening, the fragment and its closing. -/
def ReadsWrapped (b : CodeBlock) (pretty : Bool) : Prop :=
  ∃ opening ts closing, tokenize (b.clientOpening pretty) = .ok opening ∧
    tokenize (trim b.value) = .ok ts ∧ tokenize (b.clientClosing pretty) = .ok closing ∧
    tokenize (b.clientCode pretty) = .ok (opening ++
      ts.map (·.shift (byteLength (b.clientOpening pretty).toList)) ++
      closing.map (·.shift (byteLength (b.clientOpening pretty ++ trim b.value).toList)))

namespace CodeBlock

/-- The opening has tokens, the last one is a mark, and there is no comment. -/
theorem clientOpening_spec (b : CodeBlock) (pretty : Bool) :
    (tokenize (b.clientOpening pretty)).toOption.any (fun ts => ts.getLast?.any Token.isMark) ∧
      '/' ∉ (b.clientOpening pretty).toList := by
  have harity : b.arity < 5 := Nat.lt_succ_of_le (arityOf_le _ _)
  unfold clientOpening
  generalize b.arity = n at harity
  revert n
  cases b.kind <;> cases pretty <;> decide +kernel

theorem exists_tokenize_opening (b : CodeBlock) (pretty : Bool) :
    ∃ opening, tokenize (b.clientOpening pretty) = .ok opening ∧
      ∀ s ts, tokenize s = .ok ts → tokenize (b.clientOpening pretty ++ s) =
        .ok (opening ++ ts.map (·.shift (byteLength (b.clientOpening pretty).toList))) := by
  obtain ⟨hmark, hslash⟩ := clientOpening_spec b pretty
  obtain ⟨opening, hopening, hmark⟩ := exists_ok_of_any hmark
  exact ⟨opening, hopening, fun s ts hs =>
    tokenize_append hopening hs (not_endsInComment hslash) (.inl hmark)⟩

instance (cs : List Char) : Decidable (OnOneLine cs) := List.decidableBAll _ cs

instance (cs : List Char) : Decidable (Stops cs) := inferInstanceAs (Decidable (_ = true))

instance (cs : List Char) : Decidable (OpensComment cs) := inferInstanceAs (Decidable (_ ∨ _))

/-- The closing has tokens, on one line, and no token goes on with it. -/
theorem clientClosing_spec (b : CodeBlock) (pretty : Bool) :
    (tokenize (b.clientClosing pretty)).toOption.any (fun closing => closing ≠ []) ∧
      OnOneLine (b.clientClosing pretty).toList ∧ Stops (b.clientClosing pretty).toList ∧
      ¬ OpensComment (b.clientClosing pretty).toList := by
  have hkind : b.clientClosing pretty = clientClosing { kind := b.kind, value := "" } pretty := rfl
  rw [hkind]
  cases b.kind <;> cases pretty <;> decide +kernel

end CodeBlock

/-- The client function of a fragment that has tokens is read piece by piece exactly if the fragment does
not end in a line comment. -/
theorem readsWrapped_iff_not_endsInComment (h : tokenize b.value = .ok ts) (pretty : Bool) :
    ReadsWrapped b pretty ↔ ¬ EndsInComment (trim b.value) := by
  obtain ⟨ts, ht, -⟩ := exists_tokenize_trim h
  obtain ⟨opening, ho, hopen⟩ := b.exists_tokenize_opening pretty
  obtain ⟨hclosing, hline, hstops, hopens⟩ := b.clientClosing_spec pretty
  obtain ⟨closing, hc, hne⟩ := exists_ok_of_any hclosing
  constructor
  · rintro ⟨opening', ts', closing', ho', ht', hc', hcode⟩ hcomment
    cases ho.symm.trans ho'
    cases ht.symm.trans ht'
    cases hc.symm.trans hc'
    -- the closing is not read
    have hlost := hopen _ _ (tokenize_append_unread ht hcomment hline)
    rw [← String.append_assoc] at hlost
    have htokens := Except.ok.inj (hcode.symm.trans hlost)
    rw [List.map_eq_nil_iff.1 (List.append_right_eq_self.1 htokens)] at hne
    cases hne
  · intro hcomment
    have hread := hopen _ _ (tokenize_append ht hc hcomment (.inr ⟨hstops, hopens⟩))
    refine ⟨opening, ts, closing, ho, ht, hc, ?_⟩
    rw [CodeBlock.clientCode, String.append_assoc, hread, List.map_append, map_shift, String.toList_append,
      byteLength_append, List.append_assoc]

theorem readsWrapped_sum : ReadsWrapped { kind := .expression, value := "data + 1" } false := by
  have htokens : (tokenize "data + 1").toOption.any fun ts => ts ≠ [] := by decide +kernel
  obtain ⟨ts, hts, -⟩ := exists_ok_of_any htokens
  have hslash : '/' ∉ (trim "data + 1").toList := by decide
  exact (@readsWrapped_iff_not_endsInComment { kind := .expression, value := "data + 1" } ts hts false).2
    (not_endsInComment hslash)

/-- The closing behind a line comment is part of the comment. -/
theorem not_readsWrapped_comment : (tokenize "data // the value").toOption.isSome ∧
    ¬ ReadsWrapped { kind := .expression, value := "data // the value" } false := by
  refine ⟨by decide +kernel, ?_⟩
  rintro ⟨opening, ts, closing, ho, ht, hc, hcode⟩
  have hlength {s : String} {us : List Token} {n : Nat} (h : tokenize s = .ok us)
      (hn : (tokenize s).toOption.map List.length = some n) : us.length = n := by
    rw [h] at hn
    exact Option.some.inj hn
  -- the function has no more tokens than its opening and the fragment
  have hopening := @hlength _ _ 7 ho (by decide +kernel)
  have hfragment := @hlength _ _ 1 ht (by decide +kernel)
  have hclosing := @hlength _ _ 3 hc (by decide +kernel)
  have hall := @hlength _ _ 8 hcode (by decide +kernel)
  simp only [List.length_append, List.length_map] at hall
  omega

end TwinView
