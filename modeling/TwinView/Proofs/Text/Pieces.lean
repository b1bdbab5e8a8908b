import TwinView.Text.Chars

/-!
The pieces of a text between the characters that separate them.
-/

namespace TwinView.Text

variable {sep c : Char} {cs tail last piece : List Char} {before : List (List Char)}

theorem splitAt_cons {sep c : Char} {piece : List Char} {pieces : List (List Char)}
    (h : splitAt sep cs = piece :: pieces) :
    splitAt sep (c :: cs) = if c = sep then [] :: piece :: pieces else (c :: piece) :: pieces := by
  rw [splitAt, h]

theorem exists_splitAt (sep : Char) (cs : List Char) :
    ∃ piece pieces, splitAt sep cs = piece :: pieces := by
  induction cs with
  | nil => exact ⟨[], [], rfl⟩
  | cons c cs ih =>
      obtain ⟨piece, pieces, h⟩ := ih
      rw [splitAt_cons h]
      split
      · exact ⟨_, _, rfl⟩
      · exact ⟨_, _, rfl⟩

theorem splitAt_append (sep : Char) (cs cs' : List Char) :
    splitAt sep (cs ++ sep :: cs') = splitAt sep cs ++ splitAt sep cs' := by
  obtain ⟨piece', pieces', h'⟩ := exists_splitAt sep cs'
  induction cs with
  | nil => rw [List.nil_append, splitAt_cons h', if_pos rfl, h']; rfl
  | cons c cs ih =>
      obtain ⟨piece, pieces, h⟩ := exists_splitAt sep cs
      rw [h] at ih
      rw [List.cons_append, splitAt_cons ih, splitAt_cons h]
      split <;> rfl

theorem eq_of_splitAt {sep : Char} {piece : List Char} {pieces : List (List Char)}
    (h : splitAt sep cs = piece :: pieces) : cs = piece ++ pieces.flatMap (sep :: ·) := by
  induction cs generalizing piece pieces with
  | nil =>
      cases h
      rfl
  | cons c cs ih =>
      obtain ⟨piece', pieces', h'⟩ := exists_splitAt sep cs
      rw [splitAt_cons h'] at h
      split at h
      · next hc =>
          cases h
          rw [ih h', hc]
          rfl
      · cases h
        rw [ih h']
        rfl

theorem splitAt_of_notMem (h : sep ∉ cs) : splitAt sep cs = [cs] := by
  induction cs with
  | nil => rfl
  | cons c cs ih =>
      rw [List.mem_cons, not_or] at h
      rw [splitAt_cons (ih h.2), if_neg (Ne.symm h.1)]

theorem splitAt_append_tail (h : splitAt sep cs = before ++ [last]) (htail : sep ∉ tail) :
    splitAt sep (cs ++ tail) = before ++ [last ++ tail] := by
  -- The last piece may be the first one too, so that each case looks at `before`.
  induction cs generalizing before last with
  | nil =>
      obtain ⟨rfl, rfl⟩ : before = [] ∧ last = [] := by
        cases before with
        | nil => exact ⟨rfl, (List.cons.inj h).1.symm⟩
        | cons => simp [splitAt] at h
      exact splitAt_of_notMem htail
  | cons c cs ih =>
      obtain ⟨piece, pieces, hsplit⟩ := exists_splitAt sep cs
      rw [splitAt_cons hsplit] at h
      by_cases hc : c = sep
      · rw [if_pos hc] at h
        cases before with
        | nil => simp at h
        | cons first before =>
            obtain ⟨rfl, hpieces⟩ := List.cons.inj h
            obtain ⟨piece', pieces', hsplit'⟩ := exists_splitAt sep (cs ++ tail)
            rw [List.cons_append, splitAt_cons hsplit', if_pos hc, ← hsplit',
              ih (hsplit.trans hpieces)]
            rfl
      · rw [if_neg hc] at h
        cases before with
        | nil =>
            obtain ⟨rfl, rfl⟩ := List.cons.inj h
            have htail' : splitAt sep (cs ++ tail) = [piece ++ tail] := @ih piece [] hsplit
            rw [List.cons_append, splitAt_cons htail', if_neg hc]
            rfl
        | cons first before =>
            obtain ⟨rfl, rfl⟩ := List.cons.inj h
            have htail' : splitAt sep (cs ++ tail) = piece :: (before ++ [last ++ tail]) :=
              @ih last (piece :: before) hsplit
            rw [List.cons_append, splitAt_cons htail', if_neg hc]
            rfl

/-- Pieces without separators are those of the text that has separators between them. -/
theorem splitAt_flatMap {pieces : List (List Char)} (h : ∀ p ∈ piece :: pieces, sep ∉ p) :
    splitAt sep (piece ++ pieces.flatMap (sep :: ·)) = piece :: pieces := by
  induction pieces generalizing piece with
  | nil => rw [List.flatMap_nil, List.append_nil, splitAt_of_notMem (h piece List.mem_cons_self)]
  | cons next pieces ih =>
      rw [List.flatMap_cons, List.cons_append, splitAt_append, splitAt_of_notMem (h piece List.mem_cons_self),
        ih fun p hp => h p (List.mem_cons_of_mem _ hp)]
      rfl

/-- No piece has a separator, and its characters are those of the text. -/
theorem of_mem_splitAt (h : piece ∈ splitAt sep cs) : sep ∉ piece ∧ piece ⊆ cs := by
  induction cs generalizing piece with
  | nil =>
      obtain rfl := List.mem_singleton.1 h
      exact ⟨List.not_mem_nil, List.Subset.refl _⟩
  | cons c cs ih =>
      obtain ⟨first, pieces, hsplit⟩ := exists_splitAt sep cs
      rw [hsplit] at ih
      rw [splitAt_cons hsplit] at h
      split at h
      · obtain rfl | h := List.mem_cons.1 h
        · exact ⟨List.not_mem_nil, List.nil_subset _⟩
        · exact ⟨(ih h).1, List.subset_cons_of_subset _ (ih h).2⟩
      · next hc =>
          obtain rfl | h := List.mem_cons.1 h
          · obtain ⟨hsep, hsub⟩ := ih List.mem_cons_self
            exact ⟨by simp [hsep, Ne.symm hc], List.cons_subset_cons _ hsub⟩
          · obtain ⟨hsep, hsub⟩ := ih (List.mem_cons_of_mem _ h)
            exact ⟨hsep, List.subset_cons_of_subset _ hsub⟩

end TwinView.Text
