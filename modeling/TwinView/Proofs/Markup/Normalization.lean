import Mathlib.Data.List.Chain
import Mathlib.Data.List.TakeWhile
import TwinView.Proofs.Markup.Blanks

/-!
Normalization of a text. Whatever is in front of a character that is no blank, and whatever is behind it, is
normalized on its own; so a run of blanks becomes a space inside a text, and a space or nothing at its ends.
-/

namespace TwinView.Markup

open Text

variable {inside : Bool} {cs rest before behind gap gap' front front' : List Char} {c x x' y : Char} {s : String}
  {p : Char → Bool}

def unblanked (cs : List Char) : List Char := cs.filter (!isCollapsible ·)

def stripped (cs : List Char) : List Char := dropEndWhile isNewline (cs.dropWhile isNewline)

theorem isNewline_eq_false (h : isCollapsible c = false) : isNewline c = false := by
  by_contra hc
  rw [isCollapsible_of_isNewline (Bool.not_eq_false _ ▸ hc)] at h
  cases h

theorem unblanked_eq_nil_iff : unblanked cs = [] ↔ ∀ c ∈ cs, isCollapsible c := by
  simp [unblanked, List.filter_eq_nil_iff]

theorem unblanked_append (cs rest : List Char) : unblanked (cs ++ rest) = unblanked cs ++ unblanked rest :=
  List.filter_append ..

theorem unblanked_cons (h : isCollapsible x = false) : unblanked (x :: cs) = x :: unblanked cs :=
  List.filter_cons_of_pos (by simp [h])

theorem dropWhile_append_cons (h : p x = false) :
    (cs ++ x :: rest).dropWhile p = cs.dropWhile p ++ x :: rest := by
  rw [List.dropWhile_append, List.dropWhile_cons_of_neg (by simp [h])]
  split
  · next hnil => rw [List.isEmpty_iff.1 hnil, List.nil_append]
  · rfl

theorem dropEndWhile_append_cons (h : p x = false) :
    dropEndWhile p (cs ++ x :: rest) = cs ++ x :: dropEndWhile p rest := by
  simp [dropEndWhile, dropWhile_append_cons h]

theorem stripped_append_cons (h : isCollapsible x = false) : stripped (cs ++ x :: rest) =
    cs.dropWhile isNewline ++ x :: dropEndWhile isNewline rest := by
  have hx := isNewline_eq_false h
  rw [stripped, dropWhile_append_cons hx, dropEndWhile_append_cons hx]

theorem stripped_of_unbroken (h : ∀ c ∈ cs, isNewline c = false) : stripped cs = cs := by
  have hkept : ∀ {cs : List Char}, (∀ c ∈ cs, isNewline c = false) → cs.dropWhile isNewline = cs := by
    intro cs h
    cases cs with
    | nil => rfl
    | cons c cs => exact List.dropWhile_cons_of_neg (by simp [h c List.mem_cons_self])
  rw [stripped, hkept h, dropEndWhile, hkept (by simpa using h), List.reverse_reverse]

theorem unblanked_dropWhile (cs : List Char) : unblanked (cs.dropWhile isNewline) = unblanked cs := by
  induction cs with
  | nil => rfl
  | cons c cs ih =>
      rw [List.dropWhile_cons]
      split
      · next hc =>
          rw [ih, unblanked, unblanked, List.filter_cons_of_neg (by simp [isCollapsible_of_isNewline hc])]
      · rfl

theorem unblanked_dropEndWhile (cs : List Char) :
    unblanked (dropEndWhile isNewline cs) = unblanked cs := by
  have h := unblanked_dropWhile cs.reverse
  rw [unblanked, unblanked, List.filter_reverse] at h
  rw [dropEndWhile, unblanked, List.filter_reverse, h, List.reverse_reverse]
  rfl

theorem unblanked_collapse (inside : Bool) (cs : List Char) :
    unblanked (collapse inside cs) = unblanked cs := by
  fun_induction collapse inside cs with
  | case1 => rfl
  | case2 c cs hc ih => rw [ih, unblanked, unblanked, List.filter_cons_of_neg (by simp [hc])]
  | case3 inside c cs hc hi ih =>
      rw [unblanked, List.filter_cons_of_neg (by decide), unblanked, List.filter_cons_of_neg (by simp [hc])]
      exact ih
  | case4 inside c cs hc ih => rw [unblanked_cons (by simpa using hc), unblanked_cons (by simpa using hc), ih]

theorem collapse_append_cons (h : isCollapsible x = false) : collapse inside (cs ++ x :: rest) =
    collapse inside cs ++ x :: collapse false rest := by
  fun_induction collapse inside cs with
  | case1 => simp [collapse, h]
  | case2 c cs hc ih => simpa [collapse, hc] using ih
  | case3 inside c cs hc hi ih => simpa [collapse, hc, hi] using ih
  | case4 inside c cs hc ih => simpa [collapse, hc] using ih

def gapFor (gap : List Char) : List Char := if gap = [] then [] else [' ']

theorem collapse_blank (h : ∀ c ∈ gap, isCollapsible c) : collapse false gap = gapFor gap := by
  have htrue : ∀ {cs : List Char}, (∀ c ∈ cs, isCollapsible c) → collapse true cs = [] := by
    intro cs h
    induction cs with
    | nil => rfl
    | cons c cs ih =>
        obtain ⟨hc, hcs⟩ := List.forall_mem_cons.1 h
        rw [collapse, if_pos hc, if_pos rfl, ih hcs]
  cases gap with
  | nil => rfl
  | cons c gap =>
      obtain ⟨hc, hgap⟩ := List.forall_mem_cons.1 h
      rw [collapse, if_pos hc, if_neg Bool.false_ne_true, htrue hgap, gapFor, if_neg (List.cons_ne_nil _ _)]

/-- Behind collapsing no two spaces stand side by side, nor does a space stand behind a run. -/
theorem apart_collapse (inside : Bool) (cs : List Char) :
    (collapse inside cs).IsChain (fun a b => ¬(a = ' ' ∧ b = ' ')) ∧
      (inside = true → (collapse inside cs).head? ≠ some ' ') := by
  fun_induction collapse inside cs with
  | case1 => exact ⟨.nil, fun _ => (Option.some_ne_none ' ').symm⟩
  | case2 c cs _ ih => exact ih
  | case3 inside c cs _ hi ih =>
      refine ⟨List.isChain_cons.2 ⟨?_, ih.1⟩, fun h => absurd h hi⟩
      rintro d hd ⟨-, rfl⟩
      exact ih.2 rfl hd
  | case4 inside c cs hc ih =>
      have hne : c ≠ ' ' := by
        rintro rfl
        exact hc rfl
      exact ⟨List.isChain_cons.2 ⟨fun _ _ h => hne h.1, ih.1⟩, fun _ h => hne (Option.some.inj h)⟩

/-- Where the only blanks are spaces that stand alone, collapsing changes nothing. -/
theorem collapse_of_apart (hspaces : ∀ c ∈ cs, isCollapsible c → c = ' ')
    (hapart : cs.IsChain (fun a b => ¬(a = ' ' ∧ b = ' '))) (hinside : inside = true → cs.head? ≠ some ' ') :
    collapse inside cs = cs := by
  induction cs generalizing inside with
  | nil => rfl
  | cons c cs ih =>
      obtain ⟨hc, hcs⟩ := List.forall_mem_cons.1 hspaces
      obtain ⟨hnext, hchain⟩ := List.isChain_cons.1 hapart
      rw [collapse]
      split
      · next hblank =>
          obtain rfl := hc hblank
          rw [if_neg fun hi => hinside hi rfl, ih hcs hchain fun _ hhead => hnext ' ' hhead ⟨rfl, rfl⟩]
      · rw [ih hcs hchain Bool.false_ne_true.elim]

theorem toList_normalize (s : String) : (normalize s).toList =
    if collapse false (stripped s.toList) = [] then [' '] else collapse false (stripped s.toList) := by
  unfold normalize
  dsimp only
  rw [stripped]
  split
  · next h => rw [if_pos h]; rfl
  · next h => rw [if_neg h, String.toList_ofList]

theorem unblanked_normalize (s : String) : unblanked (normalize s).toList = unblanked s.toList := by
  have htext : unblanked (collapse false (stripped s.toList)) = unblanked s.toList := by
    rw [unblanked_collapse, stripped, unblanked_dropEndWhile, unblanked_dropWhile]
  rw [toList_normalize]
  split
  · next h =>
      rw [← htext, h]
      rfl
  · exact htext

theorem apart_normalize (s : String) :
    (normalize s).toList.IsChain (fun a b => ¬(a = ' ' ∧ b = ' ')) := by
  rw [toList_normalize]
  split
  · exact .singleton _
  · exact (apart_collapse false _).1

theorem normalize_of_apart (hne : s ≠ "") (hspaces : ∀ c ∈ s.toList, isCollapsible c → c = ' ')
    (hapart : s.toList.IsChain (fun a b => ¬(a = ' ' ∧ b = ' '))) : normalize s = s := by
  have hunbroken : ∀ c ∈ s.toList, isNewline c = false := by
    intro c hc
    by_contra hbreak
    have hbreak := Bool.not_eq_false _ ▸ hbreak
    obtain rfl := hspaces c hc (isCollapsible_of_isNewline hbreak)
    exact absurd hbreak (by decide)
  rw [← String.toList_inj, toList_normalize, stripped_of_unbroken hunbroken,
    collapse_of_apart hspaces hapart Bool.false_ne_true.elim]
  exact if_neg fun hnil => hne (String.toList_eq_nil_iff.1 hnil)

/-- The texts in front of a character that is no blank and behind it are normalized on their own. -/
theorem normalize_split (hs : s.toList = before ++ x :: behind) (hx : isCollapsible x = false) :
    (normalize s).toList = collapse false (before.dropWhile isNewline) ++
      x :: collapse false (dropEndWhile isNewline behind) := by
  rw [toList_normalize, hs, stripped_append_cons hx, collapse_append_cons hx]
  exact if_neg (by simp)

theorem normalize_blank (h : ∀ c ∈ s.toList, isCollapsible c) : (normalize s).toList = [' '] := by
  have hblank : ∀ c ∈ stripped s.toList, isCollapsible c := by
    rw [← unblanked_eq_nil_iff] at h ⊢
    rw [stripped, unblanked_dropEndWhile, unblanked_dropWhile, h]
  rw [toList_normalize, collapse_blank hblank, gapFor]
  split
  · rfl
  · exact if_neg (List.cons_ne_nil _ _)

/-- A text has only blanks, or a first character that is no blank. -/
theorem blank_or_exists (cs : List Char) : (∀ c ∈ cs, isCollapsible c) ∨
    ∃ before x behind, cs = before ++ x :: behind ∧ (∀ c ∈ before, isCollapsible c) ∧
      isCollapsible x = false ∧ cs.takeWhile isCollapsible = before := by
  cases hfind : cs.find? (!isCollapsible ·) with
  | none => exact .inl (by simpa using hfind)
  | some x =>
      obtain ⟨hx, before, behind, rfl, hbefore⟩ := List.find?_eq_some_iff_append.1 hfind
      have hblank : ∀ c ∈ before, isCollapsible c := by simpa using hbefore
      have hx : isCollapsible x = false := by simpa using hx
      refine .inr ⟨before, x, behind, rfl, hblank, hx, ?_⟩
      rw [List.takeWhile_append_of_pos hblank, List.takeWhile_cons_of_neg (by simp [hx]), List.append_nil]

/-- What blanks at an end of a text become, less their line breaks. -/
theorem gapFor_dropWhile (gap : List Char) : gapFor (gap.dropWhile isNewline) = [' '] ↔
    ∃ c ∈ gap, isNewline c = false := by
  have hnil : gap.dropWhile isNewline = [] ↔ ∀ c ∈ gap, isNewline c := List.dropWhile_eq_nil_iff
  unfold gapFor
  split
  · next h =>
      refine iff_of_false ((List.cons_ne_nil _ _).symm) ?_
      simpa using hnil.1 h
  · next h =>
      refine iff_of_true rfl ?_
      simpa using mt hnil.2 h

theorem head?_normalize (s : String) : (normalize s).toList.head? = some ' ' ↔
    (∀ c ∈ s.toList, isCollapsible c) ∨
      ∃ c ∈ s.toList.takeWhile isCollapsible, isNewline c = false := by
  obtain hblank | ⟨before, x, behind, hs, hbefore, hx, hrun⟩ := blank_or_exists s.toList
  · rw [normalize_blank hblank]
    exact iff_of_true rfl (.inl hblank)
  · have hedge : ∀ c ∈ before.dropWhile isNewline, isCollapsible c := fun c hc =>
      hbefore c (List.dropWhile_subset _ hc)
    have hx' : x ≠ ' ' := by
      rintro rfl
      cases hx
    have hnot : ¬ ∀ c ∈ s.toList, isCollapsible c := fun h => by simp [h x (by simp [hs])] at hx
    rw [normalize_split hs hx, collapse_blank hedge, hrun, ← gapFor_dropWhile, or_iff_right hnot, gapFor]
    split <;> simp [hx']

theorem getLast?_normalize (s : String) : (normalize s).toList.getLast? = some ' ' ↔
    (∀ c ∈ s.toList, isCollapsible c) ∨
      ∃ c ∈ s.toList.reverse.takeWhile isCollapsible, isNewline c = false := by
  obtain hblank | ⟨behind, x, before, hs, hbehind, hx, hrun⟩ := blank_or_exists s.toList.reverse
  · have hblank : ∀ c ∈ s.toList, isCollapsible c := by simpa using hblank
    rw [normalize_blank hblank]
    exact iff_of_true rfl (.inl hblank)
  · have hs : s.toList = before.reverse ++ x :: behind.reverse := by
      simpa using List.reverse_eq_iff.1 hs
    have hedge : ∀ c ∈ (behind.dropWhile isNewline).reverse, isCollapsible c := fun c hc =>
      hbehind c (List.dropWhile_subset _ (List.mem_reverse.1 hc))
    have hx' : x ≠ ' ' := by
      rintro rfl
      cases hx
    have hnot : ¬ ∀ c ∈ s.toList, isCollapsible c := fun h => by simp [h x (by simp [hs])] at hx
    rw [normalize_split hs hx, dropEndWhile, List.reverse_reverse, collapse_blank hedge, hrun,
      ← gapFor_dropWhile, or_iff_right hnot, gapFor, gapFor]
    simp only [List.reverse_eq_nil_iff]
    split <;> simp [hx']

/-- Two neighbours among the characters that are no blanks, with the blanks between them. The texts in front of
them and behind them tell which two they are. -/
def Neighbours (cs before : List Char) (x : Char) (gap : List Char) (y : Char) (behind : List Char) : Prop :=
  ∃ front back, cs = front ++ x :: (gap ++ y :: back) ∧ unblanked front = before ∧ unblanked back = behind ∧
    isCollapsible x = false ∧ isCollapsible y = false ∧ ∀ c ∈ gap, isCollapsible c

theorem unblanked_of_neighbours (h : Neighbours cs before x gap y behind) :
    unblanked cs = before ++ x :: y :: behind := by
  obtain ⟨front, back, rfl, rfl, rfl, hx, hy, hgap⟩ := h
  rw [unblanked_append, unblanked_cons hx, unblanked_append, unblanked_cons hy, unblanked_eq_nil_iff.2 hgap,
    List.nil_append]

theorem exists_neighbours (h : unblanked cs = before ++ x :: y :: behind) :
    ∃ gap, Neighbours cs before x gap y behind := by
  obtain ⟨front, rest, rfl, rfl, hrest⟩ := List.filter_eq_append_iff.1 h
  obtain ⟨blanks, cs, rfl, hblanks, hx, hcs⟩ := List.filter_eq_cons_iff.1 hrest
  obtain ⟨gap, back, rfl, hgap, hy, rfl⟩ := List.filter_eq_cons_iff.1 hcs
  refine ⟨gap, front ++ blanks, back, by simp, ?_, rfl, by simpa using hx, by simpa using hy, by simpa using hgap⟩
  have hnil : unblanked blanks = [] := unblanked_eq_nil_iff.2 (by simpa using hblanks)
  rw [unblanked_append, hnil, List.append_nil]
  rfl

/-- A character that is no blank is found by the text in front of it. -/
theorem front_unique {t t' : List Char} (h : front ++ x :: t = front' ++ x' :: t') (hx : isCollapsible x = false)
    (hx' : isCollapsible x' = false) (htext : unblanked front = unblanked front') : front = front' ∧ t = t' := by
  obtain ⟨more, rfl, hmore⟩ | ⟨more, rfl, hmore⟩ := List.append_eq_append_iff.1 h
  · obtain ⟨rfl, hcons⟩ | ⟨more, rfl, -⟩ := List.cons_eq_append_iff.1 hmore
    · exact ⟨(List.append_nil _).symm, (List.cons.inj hcons).2.symm⟩
    · rw [unblanked_append, unblanked_cons hx, List.self_eq_append_right] at htext
      cases htext
  · obtain ⟨rfl, hcons⟩ | ⟨more, rfl, -⟩ := List.cons_eq_append_iff.1 hmore
    · exact ⟨List.append_nil _, (List.cons.inj hcons).2⟩
    · rw [unblanked_append, unblanked_cons hx', List.append_right_eq_self] at htext
      cases htext

theorem gap_unique (h : Neighbours cs before x gap y behind) (h' : Neighbours cs before x gap' y behind) :
    gap = gap' := by
  obtain ⟨front, back, rfl, rfl, -, hx, hy, hgap⟩ := h
  obtain ⟨front', back', hcs, htext, -, -, -, hgap'⟩ := h'
  obtain ⟨-, hcs⟩ := front_unique hcs hx hx htext.symm
  exact (front_unique hcs hy hy (by rw [unblanked_eq_nil_iff.2 hgap, unblanked_eq_nil_iff.2 hgap'])).1

theorem neighbours_normalize (h : Neighbours s.toList before x gap y behind) :
    Neighbours (normalize s).toList before x (gapFor gap) y behind := by
  obtain ⟨front, back, hs, rfl, rfl, hx, hy, hgap⟩ := h
  refine ⟨collapse false (front.dropWhile isNewline), collapse false (dropEndWhile isNewline back), ?_, ?_, ?_,
    hx, hy, ?_⟩
  · rw [normalize_split hs hx, dropEndWhile_append_cons (isNewline_eq_false hy), collapse_append_cons hy,
      collapse_blank hgap]
  · rw [unblanked_collapse, unblanked_dropWhile]
  · rw [unblanked_collapse, unblanked_dropEndWhile]
  · unfold gapFor
    split
    · nofun
    · exact List.forall_mem_singleton.2 rfl

theorem neighbours_normalize_iff (s : String) (before : List Char) (x y : Char) (behind : List Char) :
    Neighbours (normalize s).toList before x [' '] y behind ↔
      ∃ gap, gap ≠ [] ∧ Neighbours s.toList before x gap y behind := by
  constructor
  · intro h
    have htext := unblanked_of_neighbours h
    rw [unblanked_normalize] at htext
    obtain ⟨gap, hgap⟩ := exists_neighbours htext
    refine ⟨gap, ?_, hgap⟩
    rintro rfl
    exact absurd (gap_unique (neighbours_normalize hgap) h) (by decide)
  · rintro ⟨gap, hne, hgap⟩
    have h := neighbours_normalize hgap
    rwa [gapFor, if_neg hne] at h

/-- The text `t` is the text `s` with its blanks normalized. -/
structure Normalizes (s t : String) : Prop where
  nonempty : t ≠ ""
  spaces : ∀ c ∈ t.toList, isCollapsible c → c = ' '
  apart : t.toList.IsChain fun a b => ¬(a = ' ' ∧ b = ' ')
  text : unblanked t.toList = unblanked s.toList
  gaps : ∀ before x y behind, Neighbours t.toList before x [' '] y behind ↔
    ∃ gap, gap ≠ [] ∧ Neighbours s.toList before x gap y behind
  /-- A space stands in front of the text for blanks that are not all line breaks, or if there is nothing else. -/
  starts : t.toList.head? = some ' ' ↔ (∀ c ∈ s.toList, isCollapsible c) ∨
    ∃ c ∈ s.toList.takeWhile isCollapsible, isNewline c = false
  ends : t.toList.getLast? = some ' ' ↔ (∀ c ∈ s.toList, isCollapsible c) ∨
    ∃ c ∈ s.toList.reverse.takeWhile isCollapsible, isNewline c = false

/-- Normalization changes blanks only, and changes nothing the second time. -/
theorem normalizes_once (s : String) :
    Normalizes s (normalize s) ∧ normalize (normalize s) = normalize s := by
  have hspaces : ∀ c ∈ (normalize s).toList, isCollapsible c → c = ' ' := fun _ => eq_space_of_mem_normalize
  constructor
  · exact ⟨normalize_ne_empty s, hspaces, apart_normalize s, unblanked_normalize s, neighbours_normalize_iff s,
      head?_normalize s, getLast?_normalize s⟩
  · exact normalize_of_apart (normalize_ne_empty s) hspaces (apart_normalize s)

end TwinView.Markup
