import TwinView.Text.Blank

/-!
Texts and the blanks at their ends.
-/

namespace TwinView.Text

theorem exists_dropEndWhile (p : Char → Bool) (cs : List Char) :
    ∃ tail, cs = dropEndWhile p cs ++ tail ∧ ∀ c ∈ tail, p c := by
  refine ⟨(cs.reverse.takeWhile p).reverse, ?_, fun c hc => ?_⟩
  · rw [dropEndWhile, ← List.reverse_append, List.takeWhile_append_dropWhile, List.reverse_reverse]
  · exact List.all_eq_true.1 List.all_takeWhile c (List.mem_reverse.1 hc)

/-- A text as the blanks at its ends and what is left without them. -/
theorem exists_trim (s : String) : ∃ tail,
    s.toList = s.toList.takeWhile isBlank ++ ((trim s).toList ++ tail) ∧ ∀ c ∈ tail, isBlank c := by
  obtain ⟨tail, hs, htail⟩ := exists_dropEndWhile isBlank (s.toList.dropWhile isBlank)
  refine ⟨tail, ?_, htail⟩
  rw [trim, String.toList_ofList, ← hs, List.takeWhile_append_dropWhile]

def charsOf (ranges : List (Nat × Nat)) : List Char :=
  ranges.flatMap fun (first, last) => (List.range' first (last + 1 - first)).map Char.ofNat

theorem mem_charsOf {ranges : List (Nat × Nat)} {c : Char} (h : inRanges ranges c) : c ∈ charsOf ranges := by
  obtain ⟨⟨first, last⟩, hmem, hc⟩ := List.any_eq_true.1 h
  simp only [Bool.and_eq_true, decide_eq_true_eq] at hc
  refine List.mem_flatMap.2 ⟨_, hmem, List.mem_map.2 ⟨c.toNat, ?_, Char.ofNat_toNat c⟩⟩
  rw [List.mem_range'_1]
  omega

end TwinView.Text
