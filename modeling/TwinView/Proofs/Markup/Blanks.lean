import TwinView.Markup

/-!
What normalization leaves of the blanks of a text: single spaces, and always something.
-/

namespace TwinView.Markup

open Text

variable {inside : Bool} {cs : List Char} {c : Char} {s : String}

/-- The only blanks behind collapsing are spaces. -/
theorem eq_space_of_mem_collapse (h : c ∈ collapse inside cs) (hc : isCollapsible c) : c = ' ' := by
  fun_induction collapse inside cs with
  | case1 => cases h
  | case2 d cs _ ih => exact ih h
  | case3 inside d cs _ _ ih =>
      obtain rfl | h := List.mem_cons.1 h
      · rfl
      · exact ih h
  | case4 inside d cs hd ih =>
      obtain rfl | h := List.mem_cons.1 h
      · exact absurd hc hd
      · exact ih h

theorem collapse_of_unblanked (h : ∀ c ∈ cs, isCollapsible c = false) : collapse inside cs = cs := by
  induction cs generalizing inside with
  | nil => rfl
  | cons c cs ih =>
      obtain ⟨hc, hcs⟩ := List.forall_mem_cons.1 h
      rw [collapse, if_neg (by simp [hc]), ih hcs]

theorem isCollapsible_of_isNewline (h : isNewline c) : isCollapsible c := by
  simp only [isNewline, Bool.or_eq_true, decide_eq_true_eq] at h
  obtain rfl | rfl := h <;> rfl

theorem normalize_ne_empty (s : String) : normalize s ≠ "" := by
  unfold normalize
  dsimp only
  split
  · decide
  · next cs hcs => simpa [← String.toList_inj] using hcs

theorem eq_space_of_mem_normalize (h : c ∈ (normalize s).toList) (hc : isCollapsible c) : c = ' ' := by
  unfold normalize at h
  dsimp only at h
  split at h
  · simpa using h
  · rw [String.toList_ofList] at h
    exact eq_space_of_mem_collapse h hc

theorem dropWhile_of_unblanked (h : ∀ c ∈ cs, isCollapsible c = false) : cs.dropWhile isNewline = cs := by
  cases cs with
  | nil => rfl
  | cons c cs =>
      rw [List.dropWhile_cons_of_neg]
      intro hc
      simp [isCollapsible_of_isNewline hc] at h

/-- A text without blanks stays as it is, unless it is empty. -/
theorem normalize_of_unblanked (h : ∀ c ∈ s.toList, isCollapsible c = false) (hne : s ≠ "") :
    normalize s = s := by
  have hkept : dropEndWhile isNewline (s.toList.dropWhile isNewline) = s.toList := by
    rw [dropWhile_of_unblanked h, dropEndWhile, dropWhile_of_unblanked (by simpa using h),
      List.reverse_reverse]
  unfold normalize
  rw [hkept]
  dsimp only
  rw [collapse_of_unblanked h]
  split
  · next hnil => exact absurd (String.toList_inj.1 hnil) hne
  · exact String.ofList_toList

end TwinView.Markup
