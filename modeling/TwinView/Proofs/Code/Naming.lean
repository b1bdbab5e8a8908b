import TwinView.Code.Names

/-!
Names that are given out never clash. A given name is a stem that ends in an underscore and a number
behind it, so that both can be read off the name, and the numbers of a stem only grow.
-/

namespace TwinView.Code

variable {stem stem' : String}

def unnumbered (name : String) : String :=
  String.ofList (name.toList.reverse.dropWhile Char.isDigit).reverse

/-- The stem ends in a digit, so that a number behind it cannot be told from it. -/
def endsInDigit (stem : String) : Bool := stem.toList.getLast?.any Char.isDigit

def IsStem (stem : String) : Prop := ∃ front, stem = front ++ "_"

theorem not_endsInDigit (h : IsStem stem) : endsInDigit stem = false := by
  obtain ⟨front, rfl⟩ := h
  simp [endsInDigit]

theorem unnumbered_numbered (h : endsInDigit stem = false) (k : Nat) :
    unnumbered (stem ++ k.repr) = stem := by
  have hdigits : ∀ c ∈ (Nat.toDigits 10 k).reverse, c.isDigit := by
    intro c hc
    exact Nat.isDigit_of_mem_toDigits (by decide) (by decide) (List.mem_reverse.1 hc)
  have hstem : stem.toList.reverse.dropWhile Char.isDigit = stem.toList.reverse := by
    rw [endsInDigit, ← List.head?_reverse] at h
    cases hcs : stem.toList.reverse with
    | nil => rfl
    | cons c cs =>
        have hc : c.isDigit = false := by simpa [hcs] using h
        rw [List.dropWhile_cons_of_neg (by simp [hc])]
  simp only [unnumbered, String.toList_append, Nat.toList_repr, List.reverse_append]
  rw [List.dropWhile_append_of_pos hdigits, hstem, List.reverse_reverse, String.ofList_toList]

theorem unnumbered_append (h : IsStem stem) (k : Nat) : unnumbered (stem ++ k.repr) = stem :=
  unnumbered_numbered (not_endsInDigit h) k

theorem repr_injective {k k' : Nat} (h : k.repr = k'.repr) : k = k' := by
  have hdigits : Nat.toDigits 10 k = Nat.toDigits 10 k' := by
    rw [← Nat.toList_repr, h, Nat.toList_repr]
  rw [← Nat.ofDigitChars_ten_toDigits (n := k), hdigits, Nat.ofDigitChars_ten_toDigits]

theorem stem_append_inj {k k' : Nat} (hs : endsInDigit stem = false) (hs' : endsInDigit stem' = false)
    (h : stem ++ k.repr = stem' ++ k'.repr) : stem = stem' ∧ k = k' := by
  have hstem : stem = stem' := by
    rw [← unnumbered_numbered hs k, h, unnumbered_numbered hs' k']
  subst hstem
  have hnumber : k.repr.toList = k'.repr.toList := by
    have := congrArg String.toList h
    simpa only [String.toList_append, List.append_cancel_left_eq] using this
  exact ⟨rfl, repr_injective (String.toList_inj.1 hnumber)⟩

namespace Names

variable {n n' : Names} {name : String}

def Taken (n : Names) (name : String) : Prop :=
  ∃ stem k, IsStem stem ∧ k ≤ n.count stem ∧ name = stem ++ k.repr

def Le (n n' : Names) : Prop := ∀ stem, n.count stem ≤ n'.count stem

theorem Le.refl (n : Names) : n.Le n := fun _ => Nat.le_refl _

theorem Le.trans {n'' : Names} (h : n.Le n') (h' : n'.Le n'') : n.Le n'' :=
  fun stem => Nat.le_trans (h stem) (h' stem)

theorem Taken.mono (h : n.Taken name) (hle : n.Le n') : n'.Taken name := by
  obtain ⟨stem, k, hs, hk, rfl⟩ := h
  exact ⟨stem, k, hs, Nat.le_trans hk (hle stem), rfl⟩

/-- What does not end in a number is never given out. -/
theorem not_taken_of_unnumbered (h : unnumbered name = name) : ¬ n.Taken name := by
  rintro ⟨stem, k, hs, -, rfl⟩
  rw [unnumbered_append hs k] at h
  have hempty : k.repr.toList = [] := by
    have := congrArg String.toList h
    simpa only [String.toList_append, List.self_eq_append_right] using this
  exact Nat.repr_ne_empty (String.toList_inj.1 hempty)

theorem fresh_name (n : Names) (stem : String) :
    (n.fresh stem).1 = stem ++ (n.count stem + 1).repr := rfl

theorem count_fresh (n : Names) (stem stem' : String) :
    (n.fresh stem).2.count stem' = if stem' = stem then n.count stem + 1 else n.count stem' := by
  by_cases h : stem' = stem
  · subst h
    simp [fresh, count]
  · have : (stem' == stem) = false := by simpa using h
    simp [fresh, count, List.lookup_cons, this, h]

theorem le_fresh (n : Names) (stem : String) : n.Le (n.fresh stem).2 := by
  intro stem'
  rw [count_fresh]
  split
  · next h =>
      subst h
      exact Nat.le_succ _
  · exact Nat.le_refl _

theorem taken_fresh (h : IsStem stem) : (n.fresh stem).2.Taken (n.fresh stem).1 := by
  have hcount : (n.fresh stem).2.count stem = n.count stem + 1 := by rw [count_fresh, if_pos rfl]
  exact ⟨stem, n.count stem + 1, h, Nat.le_of_eq hcount.symm, rfl⟩

theorem not_taken_fresh (h : IsStem stem) : ¬ n.Taken (n.fresh stem).1 := by
  rintro ⟨stem', k, hs', hk, he⟩
  obtain ⟨rfl, rfl⟩ := stem_append_inj (not_endsInDigit h) (not_endsInDigit hs') he
  exact absurd hk (Nat.not_succ_le_self _)

theorem le_rename (n : Names) (name : String) : n.Le (n.rename name).2 := by
  unfold rename
  split
  · exact .refl n
  · exact le_fresh n _

theorem isLocal_fresh (n : Names) (stem name : String) :
    (n.fresh stem).2.isLocal name = n.isLocal name := rfl

theorem isLocal_rename (n : Names) (name name' : String) :
    (n.rename name).2.isLocal name' = (name' == name || n.isLocal name') := by
  unfold rename
  split
  · next given hg =>
      by_cases h : name' = name
      · subst h
        simp [isLocal, hg]
      · have : (name' == name) = false := by simpa using h
        rw [this, Bool.false_or]
  · by_cases h : name' = name
    · subst h
      simp [isLocal]
    · have : (name' == name) = false := by simpa using h
      simp [isLocal, List.lookup_cons, this, fresh]

end Names

end TwinView.Code
