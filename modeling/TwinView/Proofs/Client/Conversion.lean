import TwinView.Proofs.Client.Literals
import TwinView.Proofs.Java.Literals
import TwinView.Proofs.Text.Breaks

/-!
Tabs and line breaks of literal text, converted to those that the settings want. Strings of Java, lone
characters of Java and strings of client code are converted each in its own way. The three agree exactly
on texts without carriage returns, as long as the layout is not converted once more.
-/

namespace TwinView

open Text Code

variable {s : Settings} {value : String} {c : Char}

/-- The string literal of Java for a text, the one of client code and, if the text is a single character,
the literal of Java for this character denote the same code units. -/
def ConvertsAlike (s : Settings) (value : String) : Prop :=
  ∃ units, (Java.literal? (Java.primitive s (.text value))).map (·.units) = some units ∧
    (∀ verbatim, Client.literal? (Client.writeText s verbatim value) = some units) ∧
    ∀ c : Char, value = c.toString →
      (Java.literal? (Java.primitive s (.char c))).map (·.units) = some units

def tabbed (s : Settings) (value : String) : List Char :=
  replaced '\t' s.indent.toList value.toList

/-- Nothing in the text is converted in two ways. -/
structure Convertible (s : Settings) (value : String) : Prop where
  /-- Carriage returns are line breaks of their own to Java only. -/
  returns : '\r' ∈ tabbed s value → s.newline = "\r" ∧ ¬ ['\r', '\n'] <:+: tabbed s value
  /-- A lone tab is converted twice. -/
  tab : value = "\t" → s.indent = "\t" ∨ '\t' ∉ s.indent.toList
  /-- A lone line feed is converted twice. -/
  lineFeed : value = "\n" → (s.indent = "\t" ∨ '\t' ∉ s.newline.toList) ∧
    (s.newline = "\n" ∨ s.newline = "\r" ∨ s.newline = "\r\n" ∨
      '\r' ∉ s.newline.toList ∧ '\n' ∉ s.newline.toList)

/-- Settings of which the indentation has no line breaks, and the line break has no tabs and is not a run of
returns. -/
structure RegularLayout (s : Settings) : Prop where
  indent : '\r' ∉ s.indent.toList ∧ '\n' ∉ s.indent.toList
  newline : s.indent = "\t" ∨ '\t' ∉ s.newline.toList
  returns : ∀ n, s.newline.toList ≠ List.replicate (n + 2) '\r'

theorem tabbed_eq_self_iff (s : Settings) (value : String) :
    tabbed s value = value.toList ↔ s.indent = "\t" ∨ '\t' ∉ value.toList := by
  rw [tabbed, replaced_eq_self_iff, or_comm, ← String.toList_inj]
  rfl

theorem toList_replaceUnless {old : Char} {own : String} (hown : own.toList = [old]) (new value : String) :
    (if new ≠ own then replaceChar old new value else value).toList =
      replaced old new.toList value.toList := by
  split
  · exact toList_replaceChar ..
  · next heq => rw [not_not.1 heq, hown, replaced_self]

theorem Java.toList_convertText (h : s.convertLineEndings = true) (value : String) :
    (Java.convertText s value).toList = replaced '\n' s.newline.toList (unified (tabbed s value)) := by
  rw [Java.convertText, if_pos h]
  dsimp only
  rw [toList_replaceUnless rfl, toList_unified, toList_replaceUnless rfl]
  rfl

theorem Client.toList_convertText (h : s.convertLineEndings = true) (value : String) :
    (Client.convertText s value).toList = replaced '\n' s.newline.toList (tabbed s value) := by
  rw [Client.convertText, if_pos h]
  dsimp only
  rw [toList_replaceUnless rfl, toList_replaceUnless rfl]
  rfl

theorem Java.convertText_toString (h : s.convertLineEndings = true) (htab : c ≠ '\t') (hfeed : c ≠ '\n')
    (hreturn : c ≠ '\r') : Java.convertText s c.toString = c.toString := by
  have hmem {d : Char} (hd : c ≠ d) : d ∉ c.toString.toList := by simpa using hd.symm
  rw [← String.toList_inj, Java.toList_convertText h, (tabbed_eq_self_iff ..).2 (.inr (hmem htab)),
    unified_of_not_mem (hmem hreturn), replaced_of_not_mem (hmem hfeed)]

theorem Java.convertText_break (h : s.convertLineEndings = true) (hc : c = '\n' ∨ c = '\r') :
    Java.convertText s c.toString = s.newline := by
  have htab : '\t' ∉ c.toString.toList := by obtain rfl | rfl := hc <;> decide
  have hfeed : unified c.toString.toList = ['\n'] := by obtain rfl | rfl := hc <;> rfl
  rw [← String.toList_inj, Java.toList_convertText h, (tabbed_eq_self_iff ..).2 (.inr htab), hfeed]
  simp [replaced]

theorem tabbed_tab (s : Settings) : tabbed s "\t" = s.indent.toList := List.append_nil _

def convertChar (s : Settings) (c : Char) : String :=
  if c = '\t' ∧ s.indent ≠ "\t" then Java.convertText s s.indent
  else if c = '\n' ∧ s.newline ≠ "\n" then Java.convertText s s.newline
  else c.toString

theorem units_text (s : Settings) (value : String) :
    (Java.literal? (Java.primitive s (.text value))).map (·.units) =
      some (utf16 (Java.convertText s value)) := by
  rw [Java.primitive, Java.literal?_stringLiteral]
  rfl

theorem units_char (h : s.convertLineEndings = true) (c : Char) :
    (Java.literal? (Java.primitive s (.char c))).map (·.units) = some (utf16 (convertChar s c)) := by
  rw [Java.primitive, Java.charLiteral, convertChar]
  simp only [h, Bool.and_true, Bool.and_eq_true, decide_eq_true_eq]
  split_ifs with htab hfeed hbeyond
  · rw [Java.literal?_stringLiteral]; rfl
  · rw [Java.literal?_stringLiteral]; rfl
  · have hne {d : Char} (hd : d.toNat < 0x10000) : c ≠ d := by rintro rfl; omega
    rw [Java.literal?_stringLiteral, Java.convertText_toString h (hne (by decide)) (hne (by decide))
      (hne (by decide))]
    rfl
  · have hunits : utf16Units c = [c.toNat] := utf16Units_of_lt (by omega)
    rw [Java.literal?_quotedChar hunits]
    simp [Java.Literal.units, utf16, hunits]

theorem literal?_writeText (h : s.normalizeWhitespace = false) (verbatim : Bool) (value : String) :
    Client.literal? (Client.writeText s verbatim value) = some (utf16 (Client.convertText s value)) := by
  rw [Client.writeText, if_neg (by simp [h]), Client.literal?_stringLiteral]

theorem convertsAlike_iff_texts (hon : s.convertLineEndings = true) (hoff : s.normalizeWhitespace = false) :
    ConvertsAlike s value ↔ Client.convertText s value = Java.convertText s value ∧
      ∀ c : Char, value = c.toString → convertChar s c = Java.convertText s value := by
  have hinj (v w : String) : utf16 v = utf16 w ↔ v = w := ⟨fun h => utf16_injective h, congrArg utf16⟩
  simp only [ConvertsAlike, units_text, units_char hon, literal?_writeText hoff, Option.some.injEq,
    exists_eq_left', hinj, forall_const]

theorem convertText_eq (hon : s.convertLineEndings = true)
    (h : '\r' ∈ tabbed s value → s.newline = "\r" ∧ ¬ ['\r', '\n'] <:+: tabbed s value) :
    Client.convertText s value = Java.convertText s value := by
  rw [← String.toList_inj, Client.toList_convertText hon, Java.toList_convertText hon]
  by_cases hmem : '\r' ∈ tabbed s value
  · obtain ⟨hnewline, hpair⟩ := h hmem
    rw [hnewline]
    exact (replaced_unified_return hpair).symm
  · rw [unified_of_not_mem hmem]

theorem convertChar_tab (hon : s.convertLineEndings = true) (h : s.indent = "\t" ∨ '\t' ∉ s.indent.toList) :
    convertChar s '\t' = Java.convertText s "\t" := by
  rw [← String.toList_inj, Java.toList_convertText hon, tabbed_tab, convertChar]
  split_ifs with htab hfeed
  · rw [Java.toList_convertText hon, (tabbed_eq_self_iff ..).2 h]
  · exact absurd hfeed.1 (by decide)
  · have hindent : s.indent = "\t" := by simpa using htab
    rw [hindent]
    rfl

/-- The line break of the settings, converted once more where it stands for a lone line feed, stays what it
is only if it is a usual one or has no line breaks. -/
theorem convertChar_lineFeed_iff (hon : s.convertLineEndings = true)
    (hs : s.indent = "\t" ∨ '\t' ∉ s.newline.toList) :
    convertChar s '\n' = s.newline ↔ s.newline = "\n" ∨ s.newline = "\r" ∨ s.newline = "\r\n" ∨
      '\r' ∉ s.newline.toList ∧ '\n' ∉ s.newline.toList := by
  by_cases hnewline : s.newline = "\n"
  · simp [convertChar, hnewline]
  · rw [convertChar, if_neg (by simp), if_pos ⟨rfl, hnewline⟩]
    simp only [← String.toList_inj]
    rw [Java.toList_convertText hon, (tabbed_eq_self_iff ..).2 hs]
    exact replaced_unified_self_iff

theorem Convertible.convertChar_eq (hon : s.convertLineEndings = true) (h : Convertible s c.toString) :
    convertChar s c = Java.convertText s c.toString := by
  by_cases htab : c = '\t'
  · subst htab
    exact convertChar_tab hon (h.tab rfl)
  by_cases hfeed : c = '\n'
  · subst hfeed
    obtain ⟨hs, hform⟩ := h.lineFeed rfl
    rw [Java.convertText_break hon (.inl rfl)]
    exact (convertChar_lineFeed_iff hon hs).2 hform
  rw [convertChar, if_neg (by simp [htab]), if_neg (by simp [hfeed])]
  by_cases hreturn : c = '\r'
  · subst hreturn
    have hself : tabbed s "\r" = ['\r'] := (tabbed_eq_self_iff ..).2 (.inr (by decide))
    have hnewline : s.newline = "\r" := (h.returns (hself ▸ List.mem_singleton_self _)).1
    rw [Java.convertText_break hon (.inr rfl), hnewline]
    rfl
  · exact (Java.convertText_toString hon htab hfeed hreturn).symm

theorem Convertible.convertsAlike (hon : s.convertLineEndings = true) (hoff : s.normalizeWhitespace = false)
    (h : Convertible s value) : ConvertsAlike s value := by
  refine (convertsAlike_iff_texts hon hoff).2 ⟨convertText_eq hon h.returns, ?_⟩
  rintro c rfl
  exact h.convertChar_eq hon

theorem returns_of_convertText_eq (hon : s.convertLineEndings = true)
    (hs : ∀ n, s.newline.toList ≠ List.replicate (n + 2) '\r')
    (h : Client.convertText s value = Java.convertText s value) (hmem : '\r' ∈ tabbed s value) :
    s.newline = "\r" ∧ ¬ ['\r', '\n'] <:+: tabbed s value := by
  rw [← String.toList_inj, Client.toList_convertText hon, Java.toList_convertText hon] at h
  obtain ⟨hnewline, hpair⟩ := replaced_unified_eq hmem hs h.symm
  exact ⟨String.toList_inj.1 hnewline, hpair⟩

theorem indent_of_convertChar_eq (hon : s.convertLineEndings = true)
    (hs : '\r' ∉ s.indent.toList ∧ '\n' ∉ s.indent.toList)
    (h : convertChar s '\t' = Java.convertText s "\t") : s.indent = "\t" ∨ '\t' ∉ s.indent.toList := by
  by_cases hindent : s.indent = "\t"
  · exact .inl hindent
  rw [convertChar, if_pos ⟨rfl, hindent⟩, ← String.toList_inj, Java.toList_convertText hon,
    Java.toList_convertText hon, tabbed_tab] at h
  -- Neither the indentation nor what its tabs become has line breaks.
  have hreturn : '\r' ∉ tabbed s s.indent := by simp [tabbed, mem_replaced, hs.1]
  have hfeed : '\n' ∉ tabbed s s.indent := by simp [tabbed, mem_replaced, hs.2]
  rw [unified_of_not_mem hreturn, replaced_of_not_mem hfeed, unified_of_not_mem hs.1,
    replaced_of_not_mem hs.2] at h
  exact (tabbed_eq_self_iff ..).1 h

theorem ConvertsAlike.convertible (hon : s.convertLineEndings = true) (hoff : s.normalizeWhitespace = false)
    (hs : RegularLayout s) (h : ConvertsAlike s value) : Convertible s value := by
  obtain ⟨htext, hchar⟩ := (convertsAlike_iff_texts hon hoff).1 h
  refine ⟨returns_of_convertText_eq hon hs.returns htext, ?_, ?_⟩
  · rintro rfl
    exact indent_of_convertChar_eq hon hs.indent (hchar '\t' rfl)
  · rintro rfl
    have hbreak := Java.convertText_break (c := '\n') hon (.inl rfl)
    exact ⟨hs.newline, (convertChar_lineFeed_iff hon hs.newline).1 ((hchar '\n' rfl).trans hbreak)⟩

/-- Literals of one text denote the same wherever nothing in it is converted in two ways, and, with a
layout that is not converted itself, only there. -/
theorem convertsAlike_iff_convertible (hon : s.convertLineEndings = true)
    (hoff : s.normalizeWhitespace = false) :
    (Convertible s value → ConvertsAlike s value) ∧
      (RegularLayout s → ConvertsAlike s value → Convertible s value) :=
  ⟨Convertible.convertsAlike hon hoff, ConvertsAlike.convertible hon hoff⟩

/-- Returns in front of line feeds in a layout that has them, and a text that has none of its own. -/
def returnsLayout : Settings :=
  { indent := "  ", newline := "\r\n", convertLineEndings := true }

theorem convertsAlike_iff_convertible_returns :
    returnsLayout.convertLineEndings = true ∧ returnsLayout.normalizeWhitespace = false ∧
      ConvertsAlike returnsLayout "a\n\tb" ∧ ¬ ConvertsAlike returnsLayout "a\rb" := by
  have hregular : RegularLayout returnsLayout := by
    refine ⟨by decide, by decide, fun n heq => ?_⟩
    have hmem : '\n' ∈ List.replicate (n + 2) '\r' := heq ▸ by decide
    exact absurd (List.eq_of_mem_replicate hmem) (by decide)
  have hconvertible : Convertible returnsLayout "a\n\tb" := ⟨by decide, by decide, by decide⟩
  have hnot : ¬ Convertible returnsLayout "a\rb" := fun h =>
    absurd (h.returns (by decide)).1 (by decide)
  exact ⟨rfl, rfl, (convertsAlike_iff_convertible rfl rfl).1 hconvertible,
    fun h => hnot ((convertsAlike_iff_convertible rfl rfl).2 hregular h)⟩

/-- A carriage return in front of a line feed becomes a line break in Java, and stays in client code. -/
theorem not_convertsAlike_pair : ¬ ConvertsAlike { convertLineEndings := true } "a\r\nb" := by
  rintro ⟨units, hjava, hclient, -⟩
  exact absurd (hjava.trans (hclient false).symm) (by decide)

end TwinView
