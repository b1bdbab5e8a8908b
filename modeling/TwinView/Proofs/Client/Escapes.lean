import Mathlib.Tactic.SplitIfs
import TwinView.Client.Data
import TwinView.Proofs.Text.Digits

/-!
What the text of a literal is written with, in scripts and in JSON.
-/

namespace TwinView.Client

open Text

variable {c d : Char} {format : Format}

def shortEscapes (format : Format) : List (Char × Char) := [
  (format.quote, format.quote), ('\\', '\\'), ('t', '\t'), ('n', '\n'), ('r', '\r'), ('f', '\x0C'),
  ('b', '\x08')]

/-- A character is written as it is, or behind a backslash, or as escapes of its code units. -/
theorem escapeChar_spec (format : Format) (c : Char) :
    (isPrintable c ∧ c ≠ format.quote ∧ c ≠ '\\' ∧ escapeChar format c = [c]) ∨
      (∃ k, (k, c) ∈ shortEscapes format ∧ escapeChar format c = ['\\', k]) ∨
      isPrintable c = false ∧ escapeChar format c = unitEscapes c := by
  unfold escapeChar
  simp only [Bool.or_eq_true, decide_eq_true_eq]
  split_ifs with hself htab hfeed hreturn hform hback hprintable
  · refine .inr (.inl ⟨c, ?_, rfl⟩)
    obtain rfl | rfl := hself <;> simp [shortEscapes]
  · exact .inr (.inl ⟨'t', by simp [shortEscapes, htab], rfl⟩)
  · exact .inr (.inl ⟨'n', by simp [shortEscapes, hfeed], rfl⟩)
  · exact .inr (.inl ⟨'r', by simp [shortEscapes, hreturn], rfl⟩)
  · exact .inr (.inl ⟨'f', by simp [shortEscapes, hform], rfl⟩)
  · exact .inr (.inl ⟨'b', by simp [shortEscapes, hback], rfl⟩)
  · obtain ⟨hquote, hslash⟩ := not_or.1 hself
    exact .inl ⟨hprintable, hquote, hslash, rfl⟩
  · exact .inr (.inr ⟨Bool.eq_false_iff.2 hprintable, rfl⟩)

theorem escapeChar_ne_nil (format : Format) (c : Char) : escapeChar format c ≠ [] := by
  obtain ⟨-, -, -, hescape⟩ | ⟨k, -, hescape⟩ | ⟨-, hescape⟩ := escapeChar_spec format c
  · simp [hescape]
  · simp [hescape]
  · obtain ⟨es, hunits⟩ := exists_unitEscapes c
    simp [hescape, hunits]

theorem isPrintable_of_isHexDigit (h : isHexDigit c) : isPrintable c := by
  simp only [isHexDigit, isDigit, isPrintable, Bool.or_eq_true, Bool.and_eq_true, decide_eq_true_eq] at h ⊢
  obtain (⟨hl, hr⟩ | ⟨hl, hr⟩) | ⟨hl, hr⟩ := h
  all_goals exact ⟨Char.le_trans (by decide) hl, Std.lt_of_le_of_lt hr (by decide)⟩

theorem isPrintable_of_mem_escapeChar (h : d ∈ escapeChar format c) : isPrintable d := by
  obtain ⟨hprintable, -, -, hescape⟩ | ⟨k, hk, hescape⟩ | ⟨-, hescape⟩ := escapeChar_spec format c
  · rw [hescape, List.mem_singleton] at h
    exact h ▸ hprintable
  · have hletters : ∀ p ∈ shortEscapes format, isPrintable p.1 := by cases format <;> decide
    rw [hescape, List.mem_cons, List.mem_singleton] at h
    obtain rfl | rfl := h
    · decide
    · exact hletters _ hk
  · rw [hescape] at h
    obtain rfl | rfl | hhex := of_mem_unitEscapes h
    · decide
    · decide
    · exact isPrintable_of_isHexDigit hhex

theorem quote_script : Format.script.quote = '\'' := rfl

theorem toList_quoted (format : Format) (value : String) : (quoted format value).toList =
    format.quote :: (value.toList.flatMap (escapeChar format) ++ [format.quote]) := by
  rw [quoted, String.toList_ofList, List.cons_append]

theorem toList_stringLiteral (value : String) :
    (stringLiteral value).toList = '\'' :: (value.toList.flatMap (escapeChar .script) ++ ['\'']) :=
  toList_quoted .script value

end TwinView.Client
