import Mathlib.Data.List.Infix

/-!
Where a word can stand in a text that is put together from pieces.
-/

namespace TwinView.Text

variable {α : Type} {word xs ys : List α} {x : α}

theorem infix_append_cons (h : x ∉ word) (hne : word ≠ []) :
    word <:+: xs ++ x :: ys ↔ word <:+: xs ∨ word <:+: ys := by
  constructor
  · intro hw
    induction xs with
    | nil =>
        obtain hpre | hin := List.infix_cons_iff.1 hw
        · obtain ⟨y, rest, rfl⟩ := List.exists_cons_of_ne_nil hne
          exact absurd (List.cons_prefix_cons.1 hpre).1 fun heq => h (heq ▸ List.mem_cons_self)
        · exact .inr hin
    | cons y xs ih =>
        obtain hpre | hin := List.infix_cons_iff.1 hw
        · refine .inl (List.IsPrefix.isInfix ?_)
          obtain hle | hlt := Nat.lt_or_ge (y :: xs).length word.length |>.symm
          · exact List.prefix_of_prefix_length_le hpre (List.prefix_append _ _) hle
          · -- a longer word would have the element in it
            have hlong : y :: xs ++ [x] <+: word :=
              List.prefix_of_prefix_length_le ⟨ys, by simp⟩ hpre
                (by simpa [Nat.succ_le_iff] using hlt)
            exact absurd (hlong.subset (by simp)) h
        · exact (ih hin).imp_left List.infix_cons
  · rintro (h | h)
    · exact h.trans (List.prefix_append _ _).isInfix
    · exact h.trans ⟨xs ++ [x], [], by simp⟩

end TwinView.Text
