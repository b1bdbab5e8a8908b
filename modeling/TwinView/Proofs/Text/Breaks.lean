import Mathlib.Data.List.Infix
import TwinView.Text.Chars

/-!
Replacing characters by texts, and bringing all line breaks of a text to one form.
-/

namespace TwinView.Text

variable {c old : Char} {new cs : List Char}

def replaced (old : Char) (new cs : List Char) : List Char :=
  cs.flatMap fun c => if c = old then new else [c]

theorem toList_replaceChar (old : Char) (new s : String) :
    (replaceChar old new s).toList = replaced old new.toList s.toList := by
  simp [replaceChar, replaced]

theorem replaced_cons (old c : Char) (new cs : List Char) :
    replaced old new (c :: cs) = (if c = old then new else [c]) ++ replaced old new cs :=
  List.flatMap_cons

theorem replaced_self (old : Char) (cs : List Char) : replaced old [old] cs = cs := by
  induction cs with
  | nil => rfl
  | cons c cs ih =>
      rw [replaced_cons, ih]
      split
      · next h => rw [h]; rfl
      · rfl

theorem replaced_of_not_mem (h : old ∉ cs) : replaced old new cs = cs := by
  induction cs with
  | nil => rfl
  | cons c cs ih =>
      obtain ⟨hc, hcs⟩ := not_or.1 (List.mem_cons.not.1 h)
      rw [replaced_cons, ih hcs, if_neg (Ne.symm hc)]
      rfl

theorem mem_replaced : c ∈ replaced old new cs ↔ c ∈ cs ∧ c ≠ old ∨ old ∈ cs ∧ c ∈ new := by
  induction cs with
  | nil => simp [replaced]
  | cons d cs ih =>
      rw [replaced_cons, List.mem_append, ih]
      by_cases hd : d = old <;> grind

/-- What is replaced counts as often as `new` has it, for each `old` that is gone. -/
theorem countP_replaced (p : Char → Bool) (old : Char) (new cs : List Char) :
    (replaced old new cs).countP p + cs.count old * [old].countP p =
      cs.countP p + cs.count old * new.countP p := by
  induction cs with
  | nil => simp [replaced]
  | cons c cs ih =>
      have hcons : ([c] ++ cs).countP p = [c].countP p + cs.countP p := List.countP_append
      rw [List.singleton_append] at hcons
      by_cases hc : c = old
      · subst hc
        rw [replaced_cons, if_pos rfl, List.countP_append, hcons, List.count_cons_self, Nat.add_one_mul,
          Nat.add_one_mul]
        omega
      · rw [replaced_cons, if_neg hc, List.countP_append, hcons, List.count_cons_of_ne hc]
        omega

theorem length_replaced (old : Char) (new cs : List Char) :
    (replaced old new cs).length + cs.count old = cs.length + cs.count old * new.length := by
  simpa using countP_replaced (fun _ => true) old new cs

theorem count_replaced_of_ne (h : c ≠ old) (new cs : List Char) :
    (replaced old new cs).count c = cs.count c + cs.count old * new.count c := by
  simpa [List.count, h.symm] using countP_replaced (· == c) old new cs

/-- A replacement changes nothing only if there is nothing to replace, or if it is what it replaces. -/
theorem replaced_eq_self_iff : replaced old new cs = cs ↔ old ∉ cs ∨ new = [old] := by
  constructor
  · intro heq
    by_contra! hne
    have hpos : 0 < cs.count old := List.count_pos_iff.2 hne.1
    have hlength := length_replaced old new cs
    have hcount := countP_replaced (· == old) old new cs
    rw [heq] at hlength hcount
    have hone : new.length = 1 := Nat.eq_of_mul_eq_mul_left hpos (by omega)
    have hold : new.countP (· == old) = 1 := Nat.eq_of_mul_eq_mul_left hpos (by simpa using hcount.symm)
    obtain ⟨c, rfl⟩ := List.length_eq_one_iff.1 hone
    simp_all
  · rintro (h | rfl)
    · exact replaced_of_not_mem h
    · exact replaced_self old cs

def unified : List Char → List Char
  | '\r' :: '\n' :: rest => '\n' :: unified rest
  | '\r' :: rest => '\n' :: unified rest
  | c :: rest => c :: unified rest
  | [] => []

attribute [local simp] unified

theorem toList_unified (s : String) :
    (replaceChar '\r' "\n" (replaceAll "\r\n" "\n" s)).toList = unified s.toList := by
  have hpair : "\r\n".toList = ['\r', '\n'] := rfl
  rw [toList_replaceChar, replaceAll, hpair]
  change replaced '\r' ['\n'] (String.ofList (replaceFrom ['\r', '\n'] ['\n'] 0 s.toList)).toList = _
  rw [String.toList_ofList]
  generalize s.toList = cs
  fun_induction unified cs with
  | case1 rest ih => rw [← ih]; simp [replaceFrom, replaced]
  | case2 rest hfeed ih =>
      have hprefix : ¬ ['\n'] <+: rest := fun ⟨behind, heq⟩ => hfeed behind heq.symm
      rw [← ih]
      simp [replaceFrom, replaced, hprefix]
  | case3 c rest hpair hreturn ih =>
      have hc : c ≠ '\r' := hreturn
      have hprefix : ¬ ['\r', '\n'] <+: c :: rest := fun ⟨behind, heq⟩ => hc (List.cons.inj heq).1.symm
      rw [← ih]
      simp [replaceFrom, replaced, hprefix, hc]
  | case4 => rfl

theorem unified_of_not_mem (h : '\r' ∉ cs) : unified cs = cs := by
  induction cs with
  | nil => rfl
  | cons c cs ih =>
      obtain ⟨hc, hcs⟩ := not_or.1 (List.mem_cons.not.1 h)
      simp [ih hcs, Ne.symm hc]

theorem not_mem_unified (cs : List Char) : '\r' ∉ unified cs := by
  fun_induction unified cs with
  | case1 rest ih => simpa using ih
  | case2 rest hfeed ih => simpa using ih
  | case3 c rest hpair hreturn ih => exact List.not_mem_cons_of_ne_of_not_mem (Ne.symm hreturn) ih
  | case4 => exact List.not_mem_nil

theorem length_unified_le (cs : List Char) : (unified cs).length ≤ cs.length := by
  fun_induction unified cs <;> grind

theorem length_le_unified_add_count (cs : List Char) :
    cs.length ≤ (unified cs).length + cs.count '\r' ∧ cs.length ≤ (unified cs).length + cs.count '\n' := by
  fun_induction unified cs <;> grind

theorem count_unified (cs : List Char) :
    (unified cs).count '\n' + cs.length = cs.count '\r' + cs.count '\n' + (unified cs).length := by
  fun_induction unified cs <;> grind

theorem length_unified_eq_iff (cs : List Char) :
    (unified cs).length = cs.length ↔ ¬ ['\r', '\n'] <:+: cs := by
  fun_induction unified cs with
  | case1 rest ih =>
      have hle := length_unified_le rest
      simp only [List.length_cons]
      exact iff_of_false (by omega) (not_not_intro ⟨[], rest, rfl⟩)
  | case2 rest hfeed ih =>
      have hprefix : ¬ ['\r', '\n'] <+: '\r' :: rest := fun ⟨behind, heq⟩ =>
        hfeed behind (List.cons.inj heq).2.symm
      rw [List.length_cons, List.length_cons, Nat.add_right_cancel_iff, ih, List.infix_cons_iff,
        or_iff_right hprefix]
  | case3 c rest hpair hreturn ih =>
      have hprefix : ¬ ['\r', '\n'] <+: c :: rest := fun ⟨behind, heq⟩ =>
        hreturn (List.cons.inj heq).1.symm
      rw [List.length_cons, List.length_cons, Nat.add_right_cancel_iff, ih, List.infix_cons_iff,
        or_iff_right hprefix]
  | case4 => simp

/-- Where every line break becomes a return, it does not matter that they have been line feeds before, as
long as each has one character. -/
theorem replaced_unified_return (h : ¬ ['\r', '\n'] <:+: cs) :
    replaced '\n' ['\r'] (unified cs) = replaced '\n' ['\r'] cs := by
  fun_induction unified cs with
  | case1 rest ih => exact absurd ⟨[], rest, rfl⟩ h
  | case2 rest hfeed ih =>
      rw [replaced_cons, replaced_cons, ih fun hwithin => h (List.infix_cons hwithin)]
      rfl
  | case3 c rest hpair hreturn ih =>
      rw [replaced_cons, replaced_cons, ih fun hwithin => h (List.infix_cons hwithin)]
  | case4 => rfl

/-- Unifying the line breaks first makes no difference only where they end as single returns. -/
theorem replaced_unified_eq (hmem : '\r' ∈ cs) (hnew : ∀ n, new ≠ List.replicate (n + 2) '\r')
    (h : replaced '\n' new (unified cs) = replaced '\n' new cs) :
    new = ['\r'] ∧ ¬ ['\r', '\n'] <:+: cs := by
  have hpos : 0 < cs.count '\r' := List.count_pos_iff.2 hmem
  have hfeeds := count_unified cs
  have hreturns := (length_le_unified_add_count cs).1
  -- The lone returns, each of which is one more line feed after unifying.
  obtain ⟨lone, hlone⟩ : ∃ lone, (unified cs).count '\n' = cs.count '\n' + lone :=
    Nat.exists_eq_add_of_le (by omega)
  have hlength : lone * new.length = cs.count '\r' := by
    have hunified := length_replaced '\n' new (unified cs)
    have hall := length_replaced '\n' new cs
    rw [h, hlone, Nat.add_mul] at hunified
    omega
  have hcount : lone * new.count '\r' = cs.count '\r' := by
    have hne : '\r' ≠ '\n' := by decide
    have hunified := count_replaced_of_ne hne new (unified cs)
    have hall := count_replaced_of_ne hne new cs
    rw [List.count_eq_zero.2 (not_mem_unified cs), h, hlone, Nat.add_mul] at hunified
    omega
  have hlonepos : 0 < lone := Nat.pos_of_ne_zero fun hzero => by simp [hzero] at hlength; omega
  have hreplicate : new = List.replicate new.length '\r' :=
    List.eq_replicate_iff.2 ⟨rfl, fun c hc => (List.count_eq_length.1
      (Nat.eq_of_mul_eq_mul_left hlonepos (hcount.trans hlength.symm)) c hc).symm⟩
  match hn : new.length with
  | 0 => simp [hn] at hlength; omega
  | 1 =>
      refine ⟨by rw [hreplicate, hn]; rfl, (length_unified_eq_iff cs).1 ?_⟩
      rw [hn] at hlength
      omega
  | n + 2 => exact absurd (hreplicate.trans (by rw [hn])) (hnew n)

/-- The forms of a line break that stay what they are when each line break of theirs is replaced by them. -/
theorem replaced_unified_self_iff :
    replaced '\n' cs (unified cs) = cs ↔
      cs = ['\n'] ∨ cs = ['\r'] ∨ cs = ['\r', '\n'] ∨ '\r' ∉ cs ∧ '\n' ∉ cs := by
  constructor
  · intro heq
    by_contra! hne
    obtain ⟨hfeed, hreturn, hpair, hbreak⟩ := hne
    have hfeeds := count_unified cs
    have hpaired := length_le_unified_add_count cs
    have hpos : 0 < (unified cs).count '\n' := by
      by_cases hmem : '\r' ∈ cs
      · have := List.count_pos_iff.2 hmem
        omega
      · have := List.count_pos_iff.2 (hbreak hmem)
        omega
    have hlength := length_replaced '\n' cs (unified cs)
    rw [heq] at hlength
    have hle : cs.length ≤ 2 := Nat.le_of_mul_le_mul_left (c := (unified cs).count '\n') (by omega) hpos
    match hcs : cs with
    | [] => exact List.not_mem_nil (hbreak List.not_mem_nil)
    | [c] =>
        have hc : '\r' ∉ [c] := fun hmem => hreturn (by rw [List.mem_singleton.1 hmem])
        exact hfeed (by rw [List.mem_singleton.1 (hbreak hc)])
    | [c, d] =>
        have hwithin : ['\r', '\n'] <:+: [c, d] := by
          by_contra hno
          have := (length_unified_eq_iff [c, d]).2 hno
          simp only [List.length_cons, List.length_nil] at *
          omega
        exact hpair (hwithin.eq_of_length rfl).symm
  · rintro (rfl | rfl | rfl | ⟨hreturn, hfeed⟩)
    · rfl
    · rfl
    · rfl
    · rw [unified_of_not_mem hreturn, replaced_of_not_mem hfeed]

end TwinView.Text
