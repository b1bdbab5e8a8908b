import Mathlib.Algebra.Group.Nat.Defs
import Mathlib.Data.List.Basic
import TwinView.Text.Chars

/-!
Texts as the code units of UTF-16, and quoted texts read back from them. Which escapes there are is a
matter of the language that is read.
-/

namespace TwinView.Text

def utf16 (s : String) : List Nat := s.toList.flatMap utf16Units

/-- The code units of a character beyond the basic plane, and only these, are surrogates. -/
theorem utf16Units_cases (c : Char) :
    (c.toNat < 0x10000 ∧ utf16Units c = [c.toNat] ∧ ¬ (0xD800 ≤ c.toNat ∧ c.toNat ≤ 0xDFFF)) ∨
      ∃ high low, utf16Units c = [high, low] ∧ 0xD800 ≤ high ∧ high ≤ 0xDBFF ∧ 0xDC00 ≤ low ∧ low ≤ 0xDFFF ∧
        c.toNat = 0x10000 + (high - 0xD800) * 0x400 + (low - 0xDC00) := by
  have hvalid : c.toNat < 0xD800 ∨ 0xDFFF < c.toNat ∧ c.toNat < 0x110000 := c.valid
  unfold utf16Units
  dsimp only
  split
  · next hbasic => exact .inl ⟨hbasic, rfl, by omega⟩
  · next hbeyond => exact .inr ⟨_, _, rfl, by omega, by omega, by omega, by omega, by omega⟩

theorem utf16Units_of_lt {c : Char} (h : c.toNat < 0x10000) : utf16Units c = [c.toNat] := by
  rw [utf16Units, if_pos h]

theorem lt_of_mem_utf16Units {c : Char} {u : Nat} (h : u ∈ utf16Units c) : u < 16 ^ 4 := by
  obtain ⟨hbasic, heq, -⟩ | ⟨high, low, heq, -, hhigh, -, hlow, -⟩ := utf16Units_cases c
  · rw [heq, List.mem_singleton] at h
    omega
  · rw [heq, List.mem_pair] at h
    omega

theorem utf16Units_append_inj {c d : Char} {us vs : List Nat}
    (h : utf16Units c ++ us = utf16Units d ++ vs) : c = d ∧ us = vs := by
  obtain ⟨-, hc, hnot⟩ | ⟨high, low, hc, hh, hh', hl, hl', hcode⟩ := utf16Units_cases c
  · obtain ⟨-, hd, -⟩ | ⟨high', low', hd, hh, hh', -⟩ := utf16Units_cases d
    · rw [hc, hd] at h
      obtain ⟨hcd, hrest⟩ := List.cons.inj h
      exact ⟨Char.toNat_inj.1 hcd, hrest⟩
    · rw [hc, hd] at h
      have := (List.cons.inj h).1
      omega
  · obtain ⟨-, hd, hnot⟩ | ⟨high', low', hd, -, -, -, -, hcode'⟩ := utf16Units_cases d
    · rw [hc, hd] at h
      have := (List.cons.inj h).1
      omega
    · rw [hc, hd] at h
      obtain ⟨rfl, htail⟩ := List.cons.inj h
      obtain ⟨rfl, hrest⟩ := List.cons.inj htail
      exact ⟨Char.toNat_inj.1 (hcode.trans hcode'.symm), hrest⟩

theorem utf16_injective {s t : String} (h : utf16 s = utf16 t) : s = t := by
  have hlists (cs ds : List Char) (h : cs.flatMap utf16Units = ds.flatMap utf16Units) : cs = ds := by
    have hne (c : Char) : utf16Units c ≠ [] := by unfold utf16Units; dsimp only; split <;> simp
    induction cs generalizing ds with
    | nil =>
        cases ds with
        | nil => rfl
        | cons d ds => simp [hne] at h
    | cons c cs ih =>
        cases ds with
        | nil => simp [hne] at h
        | cons d ds =>
            rw [List.flatMap_cons, List.flatMap_cons] at h
            obtain ⟨rfl, hrest⟩ := utf16Units_append_inj h
            rw [ih ds hrest]
  exact String.toList_inj.1 (hlists _ _ h)

section Reading

variable {α β γ : Type} {f : List α → Option (List β)} {xs xs' : List α} {ys ys' : List β}

/-- Whatever comes behind `xs`, `f` reads `xs` as `ys`. -/
def ReadsOff (f : List α → Option (List β)) (xs : List α) (ys : List β) : Prop :=
  ∀ rest, f (xs ++ rest) = (f rest).map (ys ++ ·)

theorem ReadsOff.nil : ReadsOff f [] [] := fun rest => by simp

theorem ReadsOff.append (h : ReadsOff f xs ys) (h' : ReadsOff f xs' ys') :
    ReadsOff f (xs ++ xs') (ys ++ ys') := by
  intro rest
  rw [List.append_assoc, h, h', Option.map_map]
  congr 1
  funext zs
  exact (List.append_assoc ..).symm

theorem ReadsOff.flatMap {zs : List γ} {g : γ → List α} {h : γ → List β}
    (hall : ∀ z ∈ zs, ReadsOff f (g z) (h z)) : ReadsOff f (zs.flatMap g) (zs.flatMap h) := by
  induction zs with
  | nil => exact ReadsOff.nil
  | cons z zs ih =>
      obtain ⟨hz, hzs⟩ := List.forall_mem_cons.1 hall
      exact hz.append (ih hzs)

end Reading

/-- Reads the rest of a quoted text up to its quote, with which the whole text has to end. The first
`skip` code units belong to the last escape; `escape` reads one from behind its backslash, and tells the
code units that it stands for and how many it takes. -/
def unquoteFrom (escape : List Nat → Option (List Nat × Nat)) (quote : Nat) :
    Nat → List Nat → Option (List Nat)
  | _, [] => none
  | skip + 1, _ :: rest => unquoteFrom escape quote skip rest
  | 0, u :: rest =>
    if u = quote then if rest = [] then some [] else none
    else if u = '\n'.toNat ∨ u = '\r'.toNat then none
    else if u = '\\'.toNat then
      match escape rest with
      | some (value, length) => (unquoteFrom escape quote length rest).map (value ++ ·)
      | none => none
    else (unquoteFrom escape quote 0 rest).map (u :: ·)

variable {escape : List Nat → Option (List Nat × Nat)} {quote u : Nat} {us vs ws : List Nat}

/-- Between quotes, the code units `us` are read as `vs`. -/
def Unquotes (escape : List Nat → Option (List Nat × Nat)) (quote : Nat) (us vs : List Nat) : Prop :=
  ReadsOff (unquoteFrom escape quote 0) us vs

theorem Unquotes.closes (h : Unquotes escape quote us vs) :
    unquoteFrom escape quote 0 (us ++ [quote]) = some vs := by
  rw [h]
  simp [unquoteFrom]

theorem unquoteFrom_skip (us rest : List Nat) :
    unquoteFrom escape quote us.length (us ++ rest) = unquoteFrom escape quote 0 rest := by
  induction us with
  | nil => rfl
  | cons u us ih => exact ih

theorem unquotes_escape (hquote : quote ≠ '\\'.toNat)
    (h : ∀ rest, escape (us ++ rest) = some (vs, us.length)) :
    Unquotes escape quote ('\\'.toNat :: us) vs := by
  intro rest
  rw [List.cons_append, unquoteFrom, if_neg hquote.symm, if_neg (by decide), if_pos rfl, h]
  dsimp only
  rw [unquoteFrom_skip]

/-- A code unit that stands for itself between quotes. -/
structure Plain (quote u : Nat) : Prop where
  quote : u ≠ quote
  lineFeed : u ≠ '\n'.toNat
  carriage : u ≠ '\r'.toNat
  backslash : u ≠ '\\'.toNat

theorem unquotes_plain (h : ∀ u ∈ us, Plain quote u) : Unquotes escape quote us us := by
  have hone : ∀ u ∈ us, Unquotes escape quote [u] [u] := by
    intro u hu rest
    obtain ⟨hquote, hfeed, hreturn, hslash⟩ := h u hu
    rw [List.singleton_append, unquoteFrom, if_neg hquote, if_neg (not_or.2 ⟨hfeed, hreturn⟩), if_neg hslash]
    rfl
  simpa [Unquotes] using ReadsOff.flatMap hone

theorem plain_utf16Units {c q : Char} (hq : q.toNat < 0xD800) (hquote : c ≠ q) (hfeed : c ≠ '\n')
    (hreturn : c ≠ '\r') (hslash : c ≠ '\\') : ∀ u ∈ utf16Units c, Plain q.toNat u := by
  intro u hu
  obtain ⟨-, heq, -⟩ | ⟨high, low, heq, hhigh, -, hlow, -⟩ := utf16Units_cases c
  · rw [heq, List.mem_singleton] at hu
    subst hu
    have hne {d : Char} (h : c ≠ d) : c.toNat ≠ d.toNat := fun heq => h (Char.toNat_inj.1 heq)
    exact ⟨hne hquote, hne hfeed, hne hreturn, hne hslash⟩
  · have hlarge : 0xD800 ≤ u := by
      rw [heq, List.mem_pair] at hu
      omega
    have hsmall {d : Char} (h : d.toNat < 0xD800) : u ≠ d.toNat := by omega
    exact ⟨hsmall hq, hsmall (by decide), hsmall (by decide), hsmall (by decide)⟩

end TwinView.Text
