import Mathlib.Data.List.Forall2
import Mathlib.Data.List.Induction
import TwinView.Json.Reader
import TwinView.Proofs.Text.CodeUnits
import TwinView.Proofs.Text.Digits

/-!
What JSON text is read as: strings character by character, and lists and objects item by item, with any
blanks around their marks.
-/

namespace TwinView.Json

open Text

variable {c : Char} {cs gap gap' text rest : List Char} {j : Json} {js : List Json} {n fuel : Nat}

theorem readUnit_upperHex (h : n < 16 ^ 4) (rest : List Char) :
    readUnit (upperHex 4 n ++ rest) = some (n, rest) := by
  have hlength := length_upperHex 4 n
  have hdigits := all_upperHex 4 n
  have hnumber := hexNumber_upperHex h
  obtain ⟨a, b, c, d, heq⟩ := List.length_eq_four.1 hlength
  rw [heq] at hdigits hnumber ⊢
  exact (if_pos hdigits).trans (congrArg (fun n => some (n, rest)) hnumber)

/-- The escapes of a character are read as the character, two of them at once. -/
theorem readEscape_unitEscapes (c : Char) :
    ∃ es, unitEscapes c = '\\' :: es ∧ ∀ rest, readEscape (es ++ rest) = some (some c, rest) := by
  obtain ⟨hlt, hunits, hnot⟩ | ⟨high, low, hunits, hhigh, hhigh', hlow, hlow', hcode⟩ := utf16Units_cases c
  · refine ⟨'u' :: upperHex 4 c.toNat, by simp [unitEscapes, hunits], fun rest => ?_⟩
    have hvalue : (c.toNat < 0xD800 || 0xE000 ≤ c.toNat) = true := by
      rw [Bool.or_eq_true, decide_eq_true_eq, decide_eq_true_eq]
      omega
    rw [List.cons_append, readEscape, readUnit_upperHex hlt]
    simp only [Option.bind_eq_bind, Option.bind_some]
    rw [if_pos hvalue, Char.ofNat_toNat]
    rfl
  · refine ⟨'u' :: upperHex 4 high ++ '\\' :: 'u' :: upperHex 4 low, by simp [unitEscapes, hunits],
      fun rest => ?_⟩
    have hhigh : (high < 0xD800 || 0xE000 ≤ high) = false := by
      rw [Bool.or_eq_false_iff, decide_eq_false_iff_not, decide_eq_false_iff_not]
      omega
    have hpair : (0xDC00 ≤ low && low < 0xE000) = true := by
      rw [Bool.and_eq_true, decide_eq_true_eq, decide_eq_true_eq]
      omega
    have hfirst : ¬ 0xDC00 ≤ high := by omega
    rw [List.append_assoc, List.cons_append, readEscape, readUnit_upperHex (by omega)]
    simp only [Option.bind_eq_bind, Option.bind_some]
    rw [hhigh, if_neg Bool.false_ne_true, if_neg hfirst]
    simp only [List.cons_append]
    rw [readUnit_upperHex (by omega)]
    simp only [Option.bind_some]
    rw [if_pos hpair, ← hcode, Char.ofNat_toNat]
    rfl

def ReadsChar (cs : List Char) (c : Char) : Prop := ∀ fuel rest,
  readString (fuel + 1) (cs ++ rest) = (readString fuel rest).map fun (tail, r) => (tail.map (c :: ·), r)

theorem readsChar_escape (h : ∀ rest, readEscape (cs ++ rest) = some (some c, rest)) :
    ReadsChar ('\\' :: cs) c := by
  intro fuel rest
  rw [List.cons_append, readString, if_neg (by decide), if_pos rfl, h]
  simp only [Option.bind_eq_bind, Option.bind_some]
  cases readString fuel rest with
  | none => rfl
  | some p =>
      obtain ⟨tail, r⟩ := p
      cases tail <;> rfl

theorem readsChar_plain (hquote : c ≠ '"') (hslash : c ≠ '\\') (hcontrol : 0x20 ≤ c.toNat) :
    ReadsChar [c] c := by
  intro fuel rest
  rw [List.singleton_append, readString, if_neg hquote, if_neg hslash, if_neg (Nat.not_lt.2 hcontrol)]
  cases readString fuel rest <;> rfl

theorem readString_flatMap {f : Char → List Char} (hf : ∀ c, ReadsChar (f c) c) (cs rest : List Char)
    (hfuel : cs.length < fuel) : readString fuel (cs.flatMap f ++ '"' :: rest) = some (some cs, rest) := by
  induction cs generalizing fuel with
  | nil =>
      obtain ⟨fuel, rfl⟩ := Nat.exists_eq_add_one_of_ne_zero (Nat.ne_zero_of_lt hfuel)
      rfl
  | cons c cs ih =>
      obtain ⟨fuel, rfl⟩ := Nat.exists_eq_add_one_of_ne_zero (Nat.ne_zero_of_lt hfuel)
      rw [List.flatMap_cons, List.append_assoc, hf, ih (Nat.lt_of_succ_lt_succ hfuel)]
      rfl

/-- The bound that the reader of a string takes from the text is large enough. -/
theorem readString_quoted {f : Char → List Char} (hf : ∀ c, ReadsChar (f c) c) (hne : ∀ c, f c ≠ [])
    (cs rest : List Char) :
    readString ((cs.flatMap f ++ '"' :: rest).length + 1) (cs.flatMap f ++ '"' :: rest) =
      some (some cs, rest) := by
  have hlength : cs.length ≤ (cs.flatMap f).length := by
    induction cs with
    | nil => exact Nat.le_refl _
    | cons c cs ih =>
        have := List.length_pos_iff.2 (hne c)
        rw [List.flatMap_cons, List.length_append, List.length_cons]
        omega
  refine readString_flatMap hf cs rest ?_
  rw [List.length_append]
  omega

def IsSpaces (gap : List Char) : Prop := ∀ c ∈ gap, isJsonSpace c

theorem skipSpace_append (h : IsSpaces gap) (cs : List Char) : skipSpace (gap ++ cs) = skipSpace cs := by
  rw [skipSpace, List.dropWhile_append_of_pos h, skipSpace]

theorem skipSpace_cons (h : isJsonSpace c = false) (cs : List Char) : skipSpace (c :: cs) = c :: cs := by
  rw [skipSpace, List.dropWhile_cons_of_neg (by simp [h])]

theorem readValue_spaces (h : IsSpaces gap) (fuel : Nat) (cs : List Char) :
    readValue fuel (gap ++ cs) = readValue fuel cs := by
  cases fuel with
  | zero => rw [readValue, readValue]
  | succ fuel => rw [readValue, readValue, skipSpace_append h]

theorem readItems_spaces (h : IsSpaces gap) (fuel : Nat) (cs : List Char) :
    readItems fuel (gap ++ cs) = readItems fuel cs := by
  cases fuel with
  | zero => rw [readItems, readItems]
  | succ fuel => rw [readItems, readItems, readValue_spaces h]

theorem readMembers_spaces (h : IsSpaces gap) (fuel : Nat) (cs : List Char) :
    readMembers fuel (gap ++ cs) = readMembers fuel cs := by
  cases fuel with
  | zero => rw [readMembers, readMembers]
  | succ fuel => rw [readMembers, readMembers, skipSpace_append h]

/-- The text is read as the value, whatever comes behind it. -/
structure Spells (text : List Char) (j : Json) : Prop where
  opens : ∃ c cs, text = c :: cs ∧ isJsonSpace c = false ∧ c ≠ ']'
  reads : ∀ fuel rest, 2 * text.length ≤ fuel → readValue fuel (text ++ rest) = some (j, rest)

theorem spells_null : Spells ['n', 'u', 'l', 'l'] .null where
  opens := ⟨_, _, rfl, by decide, by decide⟩
  reads fuel rest hfuel := by
    obtain ⟨fuel, rfl⟩ := Nat.exists_eq_add_one_of_ne_zero (Nat.ne_zero_of_lt hfuel)
    rw [readValue]
    rfl

theorem spells_true : Spells ['t', 'r', 'u', 'e'] (.bool true) where
  opens := ⟨_, _, rfl, by decide, by decide⟩
  reads fuel rest hfuel := by
    obtain ⟨fuel, rfl⟩ := Nat.exists_eq_add_one_of_ne_zero (Nat.ne_zero_of_lt hfuel)
    rw [readValue]
    rfl

theorem spells_false : Spells ['f', 'a', 'l', 's', 'e'] (.bool false) where
  opens := ⟨_, _, rfl, by decide, by decide⟩
  reads fuel rest hfuel := by
    obtain ⟨fuel, rfl⟩ := Nat.exists_eq_add_one_of_ne_zero (Nat.ne_zero_of_lt hfuel)
    rw [readValue]
    rfl

theorem spells_string {f : Char → List Char} (hf : ∀ c, ReadsChar (f c) c) (hne : ∀ c, f c ≠ [])
    (cs : List Char) : Spells ('"' :: (cs.flatMap f ++ ['"'])) (.str (String.ofList cs)) where
  opens := ⟨_, _, rfl, by decide, by decide⟩
  reads fuel rest hfuel := by
    obtain ⟨fuel, rfl⟩ := Nat.exists_eq_add_one_of_ne_zero (Nat.ne_zero_of_lt hfuel)
    rw [List.cons_append, List.append_assoc, readValue, skipSpace_cons (by decide)]
    simp only [List.singleton_append, readString_quoted hf hne]
    rfl

section

variable {α β : Type} {R : Nat → List Char → Option (β × List Char)} {close : Char} {wrap : List α → β}
  {a : α} {as : List α} {texts : List (List Char)}

/-- The text is read as a thing, the last one or one of several. -/
structure SpellsOne (R : Nat → List Char → Option (β × List Char)) (close : Char) (wrap : List α → β)
    (text : List Char) (a : α) : Prop where
  last : ∀ fuel gap rest, IsSpaces gap → 2 * text.length ≤ fuel →
    R (fuel + 1) (text ++ (gap ++ close :: rest)) = some (wrap [a], rest)
  more : ∀ fuel rest as r, 2 * text.length ≤ fuel → R fuel rest = some (wrap as, r) →
    R (fuel + 1) (text ++ ',' :: rest) = some (wrap (a :: as), r)

theorem spells_separated (hR : ∀ fuel cs, R fuel (gap ++ cs) = R fuel cs) (hgap' : IsSpaces gap')
    (h : SpellsOne R close wrap text a) (hs : List.Forall₂ (SpellsOne R close wrap) texts as)
    (hfuel : 2 * (text ++ texts.flatMap fun t => ',' :: (gap ++ t)).length < fuel) :
    R fuel (text ++ (texts.flatMap (fun t => ',' :: (gap ++ t)) ++ (gap' ++ close :: rest))) =
      some (wrap (a :: as), rest) := by
  induction hs generalizing text a fuel with
  | nil =>
      obtain ⟨fuel, rfl⟩ := Nat.exists_eq_add_one_of_ne_zero (Nat.ne_zero_of_lt hfuel)
      rw [List.flatMap_nil, List.append_nil] at hfuel
      exact h.last fuel gap' rest hgap' (Nat.le_of_lt_succ hfuel)
  | @cons text' a' texts as h' _ ih =>
      obtain ⟨fuel, rfl⟩ := Nat.exists_eq_add_one_of_ne_zero (Nat.ne_zero_of_lt hfuel)
      simp only [List.flatMap_cons, List.length_append, List.length_cons] at hfuel
      have hmore := ih h' (show _ < fuel by rw [List.length_append]; omega)
      rw [← hR] at hmore
      have htext := h.more fuel _ _ _ (by omega) hmore
      simpa only [List.flatMap_cons, List.cons_append, List.append_assoc] using htext

end

theorem Spells.item (h : Spells text j) : SpellsOne readItems ']' id text j where
  last fuel gap rest hgap hfuel := by
    rw [readItems, h.reads _ _ hfuel]
    simp only [Option.bind_eq_bind, Option.bind_some]
    rw [skipSpace_append hgap, skipSpace_cons (by decide)]
    rfl
  more fuel rest as r hfuel hmore := by
    rw [readItems, h.reads _ _ hfuel]
    simp only [Option.bind_eq_bind, Option.bind_some]
    rw [skipSpace_cons (by decide)]
    simp [hmore]

theorem spells_emptyList : Spells ['[', ']'] (.arr []) where
  opens := ⟨_, _, rfl, by decide, by decide⟩
  reads fuel rest hfuel := by
    obtain ⟨fuel, rfl⟩ := Nat.exists_eq_add_one_of_ne_zero (Nat.ne_zero_of_lt hfuel)
    rw [readValue]
    rfl

theorem readValue_list (h : c ≠ ']') (hskip : skipSpace rest = c :: cs) (fuel : Nat) :
    readValue (fuel + 1) ('[' :: rest) =
      (readItems fuel (c :: cs)).map fun (items, r) => (.arr items, r) := by
  rw [readValue, skipSpace_cons (by decide)]
  simp only [hskip]
  split
  · next heq => exact absurd (List.cons.inj heq).1 h
  · cases readItems fuel (c :: cs) <;> rfl

theorem spells_list {texts : List (List Char)} (hgap : IsSpaces gap) (hgap' : IsSpaces gap')
    (h : Spells text j) (hs : List.Forall₂ Spells texts js) :
    Spells ('[' :: (gap ++ (text ++ (texts.flatMap (fun t => ',' :: (gap ++ t)) ++ (gap' ++ [']'])))))
      (.arr (j :: js)) where
  opens := ⟨_, _, rfl, by decide, by decide⟩
  reads fuel rest hfuel := by
    obtain ⟨fuel, rfl⟩ := Nat.exists_eq_add_one_of_ne_zero (Nat.ne_zero_of_lt hfuel)
    have hitems : readItems fuel (text ++ (texts.flatMap (fun t => ',' :: (gap ++ t)) ++
        (gap' ++ ']' :: rest))) = some (j :: js, rest) :=
      spells_separated (readItems_spaces hgap) hgap' h.item (hs.imp fun _ _ => Spells.item)
        (by simp only [List.length_append, List.length_cons] at hfuel ⊢; omega)
    have htext : '[' :: (gap ++ (text ++ (texts.flatMap (fun t => ',' :: (gap ++ t)) ++ (gap' ++ [']'])))) ++
        rest = '[' :: (gap ++ (text ++ (texts.flatMap (fun t => ',' :: (gap ++ t)) ++
          (gap' ++ ']' :: rest)))) := by simp
    obtain ⟨c, cs, rfl, hc, hclose⟩ := h.opens
    rw [htext]
    exact (readValue_list hclose ((skipSpace_append hgap _).trans (skipSpace_cons hc _)) fuel).trans
      (congrArg _ hitems)

section

variable {f : Char → List Char}

def memberText (f : Char → List Char) (key : String) (gap text : List Char) : List Char :=
  '"' :: (key.toList.flatMap f ++ '"' :: ':' :: (gap ++ text))

def behindMember (fuel : Nat) (m : String × Json) :
    List Char → Option (Option (List (String × Json)) × List Char)
  | '\x7d' :: rest => some (some [m], rest)
  | ',' :: rest => (readMembers fuel rest).map fun (members, r) => (members.map (m :: ·), r)
  | _ => none

theorem readMembers_member (hf : ∀ c, ReadsChar (f c) c) (hne : ∀ c, f c ≠ []) (key : String)
    (hgap : IsSpaces gap) (h : Spells text j) (rest : List Char)
    (hfuel : 2 * (memberText f key gap text).length ≤ fuel) :
    readMembers (fuel + 1) (memberText f key gap text ++ rest) =
      behindMember fuel (key, j) (skipSpace rest) := by
  have htext : memberText f key gap text ++ rest =
      '"' :: (key.toList.flatMap f ++ '"' :: (':' :: (gap ++ (text ++ rest)))) := by simp [memberText]
  have hvalue : readValue fuel (gap ++ (text ++ rest)) = some (j, rest) := by
    rw [readValue_spaces hgap]
    refine h.reads fuel rest ?_
    simp only [memberText, List.length_append, List.length_cons] at hfuel
    omega
  rw [htext, readMembers, skipSpace_cons (by decide)]
  simp only [readString_quoted hf hne, Option.bind_eq_bind, Option.bind_some]
  rw [skipSpace_cons (by decide)]
  simp only [hvalue, Option.bind_some, Option.map_some, String.ofList_toList]
  generalize skipSpace rest = cs
  split
  · rfl
  · next _ rest =>
      rw [behindMember]
      cases readMembers fuel rest with
      | none => rfl
      | some p =>
          obtain ⟨members, r⟩ := p
          cases members <;> rfl
  · next hclose hcomma =>
      rw [behindMember]
      · exact hclose
      · exact hcomma

theorem Spells.member (hf : ∀ c, ReadsChar (f c) c) (hne : ∀ c, f c ≠ []) (key : String)
    (hgap : IsSpaces gap) (h : Spells text j) :
    SpellsOne readMembers '\x7d' some (memberText f key gap text) (key, j) where
  last fuel gap' rest hgap' hfuel := by
    rw [readMembers_member hf hne key hgap h _ hfuel, skipSpace_append hgap', skipSpace_cons (by decide)]
    rfl
  more fuel rest as r hfuel hmore := by
    rw [readMembers_member hf hne key hgap h _ hfuel, skipSpace_cons (by decide), behindMember, hmore]
    rfl

end

theorem spells_emptyObject : Spells ['\x7b', '\x7d'] (.obj []) where
  opens := ⟨_, _, rfl, by decide, by decide⟩
  reads fuel rest hfuel := by
    obtain ⟨fuel, rfl⟩ := Nat.exists_eq_add_one_of_ne_zero (Nat.ne_zero_of_lt hfuel)
    rw [readValue]
    rfl

theorem readValue_object (h : c ≠ '\x7d') (hskip : skipSpace rest = c :: cs)
    {members : List (String × Json)} {r : List Char}
    (hmembers : readMembers fuel (c :: cs) = some (some members, r)) :
    readValue (fuel + 1) ('\x7b' :: rest) = some (.obj members, r) := by
  rw [readValue, skipSpace_cons (by decide)]
  simp only [hskip]
  split
  · next heq => exact absurd (List.cons.inj heq).1 h
  · rw [hmembers]
    rfl

/-- An object of at least one member, each with its key in quotes. -/
theorem spells_object {members : List (String × Json)} {m : String × Json} {texts : List (List Char)}
    (hgap : IsSpaces gap) (hgap' : IsSpaces gap') (h : SpellsOne readMembers '\x7d' some text m)
    (hopen : text.head? = some '"') (hs : List.Forall₂ (SpellsOne readMembers '\x7d' some) texts members) :
    Spells ('\x7b' :: (gap ++ (text ++ (texts.flatMap (fun t => ',' :: (gap ++ t)) ++ (gap' ++ ['\x7d'])))))
      (.obj (m :: members)) where
  opens := ⟨_, _, rfl, by decide, by decide⟩
  reads fuel rest hfuel := by
    obtain ⟨fuel, rfl⟩ := Nat.exists_eq_add_one_of_ne_zero (Nat.ne_zero_of_lt hfuel)
    have hmembers : readMembers fuel (text ++ (texts.flatMap (fun t => ',' :: (gap ++ t)) ++
        (gap' ++ '\x7d' :: rest))) = some (some (m :: members), rest) :=
      spells_separated (readMembers_spaces hgap) hgap' h hs
        (by simp only [List.length_append, List.length_cons] at hfuel ⊢; omega)
    have htext : '\x7b' :: (gap ++ (text ++ (texts.flatMap (fun t => ',' :: (gap ++ t)) ++
        (gap' ++ ['\x7d'])))) ++ rest = '\x7b' :: (gap ++ (text ++ (texts.flatMap (fun t => ',' :: (gap ++ t)) ++
          (gap' ++ '\x7d' :: rest)))) := by simp
    obtain ⟨cs, rfl⟩ := List.head?_eq_some_iff.1 hopen
    rw [htext]
    exact readValue_object (by decide) ((skipSpace_append hgap _).trans (skipSpace_cons (by decide) _)) hmembers

theorem put_of_notMem {α : Type} {key : String} {members : List (String × α)} (value : α)
    (h : key ∉ members.map (·.1)) : put key value members = members ++ [(key, value)] := by
  induction members with
  | nil => rfl
  | cons m members ih =>
      rw [List.map_cons, List.mem_cons, not_or] at h
      obtain ⟨hne, hmore⟩ := h
      rw [put, if_neg (Ne.symm hne), ih hmore, List.cons_append]

theorem foldl_put {α : Type} {members : List (String × α)} (h : (members.map (·.1)).Nodup) :
    members.foldl (fun ms (k, v) => put k v ms) [] = members := by
  induction members using List.reverseRecOn with
  | nil => rfl
  | append_singleton members m ih =>
      rw [List.map_append, List.nodup_append] at h
      obtain ⟨hmembers, -, hne⟩ := h
      rw [List.foldl_append, ih hmembers, List.foldl_cons, List.foldl_nil]
      exact put_of_notMem _ fun hm => hne _ hm _ (List.mem_singleton_self _) rfl

/-- A text that spells a value, and nothing else, is parsed as the value. -/
theorem parse_of_spells {text : String} (h : Spells text.toList j) : parse text = some j := by
  have hread := h.reads (2 * text.toList.length + 1) [] (Nat.le_succ _)
  rw [List.append_nil] at hread
  rw [parse]
  simp only [hread, Option.bind_eq_bind, Option.bind_some]
  rfl

end TwinView.Json
