import Mathlib.Data.List.DropRight
import Mathlib.Data.List.Induction
import Mathlib.Data.Prod.Lex
import Mathlib.Order.Monotone.Defs
import TwinView.Proofs.Script.Tiling
import TwinView.Text.Position

/-!
Places behind a text. The place of an offset is found by walking over the characters in front of it,
and a walk over two texts is the walk over the first followed by the walk over the second, moved to
where the first one ends. Each character leads to a later line or to a later column of the same line, so
the line and the column of a character tell where it stands.
-/

namespace TwinView.Position

open Script

def next (p : Position) (c : Char) : Position :=
  if c = '\n' then ⟨p.index + c.utf8Size, p.line + 1, 0⟩
  else ⟨p.index + c.utf8Size, p.line, p.column + 1⟩

def after (p : Position) (cs : List Char) : Position := cs.foldl next p

def shift (base p : Position) : Position :=
  ⟨base.index + p.index, base.line + p.line - 1,
    if p.line = 1 then base.column + p.column else p.column⟩

variable {base p : Position} {c : Char} {cs rest : List Char} {source : String} {offset : Nat}

@[simp] theorem after_nil : p.after [] = p := rfl

@[simp] theorem after_cons : p.after (c :: cs) = (p.next c).after cs := rfl

theorem after_append (p : Position) (cs rest : List Char) :
    p.after (cs ++ rest) = (p.after cs).after rest := List.foldl_append

theorem next_index : (p.next c).index = p.index + c.utf8Size := by
  unfold next
  split <;> rfl

theorem line_le_next : p.line ≤ (p.next c).line := by
  unfold next
  split
  · exact Nat.le_succ _
  · exact Nat.le_refl _

theorem after_index : (p.after cs).index = p.index + byteLength cs := by
  induction cs generalizing p with
  | nil => rfl
  | cons c rest ih => rw [after_cons, ih, next_index, byteLength, Nat.add_assoc]

/-- A walk goes over a character that starts in front of the offset. -/
theorem walk_cons (h : p.index < offset) :
    walk offset (c :: rest) p.index p.line p.column =
      walk offset rest (p.next c).index (p.next c).line (p.next c).column := by
  rw [walk, if_neg (Nat.not_le_of_lt h), next]
  split <;> rfl

theorem walk_of_le (cs : List Char) (h : offset ≤ p.index) :
    walk offset cs p.index p.line p.column = ⟨offset, p.line, p.column⟩ := by
  cases cs with
  | nil => rfl
  | cons c rest => rw [walk, if_pos h]

theorem walk_append (rest : List Char) (h : (p.after cs).index ≤ offset) :
    walk offset (cs ++ rest) p.index p.line p.column =
      walk offset rest (p.after cs).index (p.after cs).line (p.after cs).column := by
  induction cs generalizing p with
  | nil => rfl
  | cons c tail ih =>
      have hc : p.index < offset := by
        have := c.utf8Size_pos
        rw [after_index, byteLength] at h
        omega
      rw [List.cons_append, walk_cons hc, ih h, after_cons]

/-- A walk that stops in a text does not see what is behind it. -/
theorem walk_append_of_le (rest : List Char) (h : offset ≤ (p.after cs).index) :
    walk offset (cs ++ rest) p.index p.line p.column = walk offset cs p.index p.line p.column := by
  induction cs generalizing p with
  | nil => exact walk_of_le rest h
  | cons c tail ih =>
      obtain hlt | hle := Nat.lt_or_ge p.index offset
      · rw [List.cons_append, walk_cons hlt, ih h, walk_cons hlt]
      · rw [walk_of_le _ hle, walk_of_le _ hle]

theorem walk_index (offset : Nat) (cs : List Char) (here line column : Nat) :
    (walk offset cs here line column).index = offset := by
  induction cs generalizing here line column with
  | nil => rfl
  | cons c rest ih =>
      rw [walk]
      split
      · rfl
      · split
        · exact ih ..
        · exact ih ..

@[simp] theorem locate_index (source : String) (offset : Nat) : (locate source offset).index = offset :=
  walk_index ..

theorem locate_eq_after (h : source.toList = cs ++ rest) :
    locate source (byteLength cs) = after ⟨0, 1, 0⟩ cs := by
  have hindex : (after ⟨0, 1, 0⟩ cs).index = byteLength cs := by rw [after_index, Nat.zero_add]
  have hover := walk_append rest (Nat.le_of_eq hindex)
  rw [locate, h, hover, walk_of_le rest (Nat.le_of_eq hindex.symm), ← hindex]

theorem locate_end (source : String) :
    locate source source.utf8ByteSize = after ⟨0, 1, 0⟩ source.toList := by
  rw [← byteLength_toList]
  exact locate_eq_after (List.append_nil _).symm

def lastLine (cs : List Char) : List Char := cs.rtakeWhile (· ≠ '\n')

theorem lastLine_of_forall (h : ∀ c ∈ cs, c ≠ '\n') : lastLine cs = cs :=
  List.rtakeWhile_eq_self_iff.2 fun c hc => decide_eq_true (h c hc)

/-- The walk from the start of a text counts its lines and the characters of the last one. -/
theorem after_start (cs : List Char) :
    after ⟨0, 1, 0⟩ cs = ⟨byteLength cs, 1 + cs.count '\n', (lastLine cs).length⟩ := by
  induction cs using List.reverseRecOn with
  | nil => rfl
  | append_singleton cs c ih =>
      have hlast : lastLine (cs ++ [c]) = if c = '\n' then [] else lastLine cs ++ [c] := by
        simp [lastLine, List.rtakeWhile_concat]
      rw [after_append, ih, after_cons, after_nil, next, hlast, List.count_append, byteLength_append]
      by_cases hc : c = '\n'
      · subst hc
        rfl
      · simp [byteLength, hc]

theorem shift_start : base.shift ⟨0, 1, 0⟩ = base := rfl

theorem shift_next (h : 1 ≤ p.line) : base.shift (p.next c) = (base.shift p).next c := by
  have hindex : base.index + (p.index + c.utf8Size) = base.index + p.index + c.utf8Size :=
    (Nat.add_assoc ..).symm
  by_cases hc : c = '\n'
  · have hline : base.line + (p.line + 1) - 1 = base.line + p.line - 1 + 1 := by omega
    have hnew : ¬ p.line + 1 = 1 := by omega
    simp only [next, shift, if_pos hc, if_neg hnew, hindex, hline]
  · simp only [next, shift, if_neg hc, hindex, mk.injEq, true_and]
    split <;> rfl

theorem shift_after (h : 1 ≤ p.line) : base.shift (p.after cs) = (base.shift p).after cs := by
  induction cs generalizing p with
  | nil => rfl
  | cons c rest ih => rw [after_cons, ih (Nat.le_trans h line_le_next), shift_next h, after_cons]

theorem shift_walk (base p : Position) (offset : Nat) (cs : List Char) (h : 1 ≤ p.line) :
    base.shift (walk offset cs p.index p.line p.column) =
      walk (base.index + offset) cs (base.shift p).index (base.shift p).line (base.shift p).column := by
  induction cs generalizing p with
  | nil => rfl
  | cons c rest ih =>
      obtain hlt | hle := Nat.lt_or_ge p.index offset
      · rw [walk_cons hlt, ih _ (Nat.le_trans h line_le_next), shift_next h]
        exact (walk_cons (Nat.add_lt_add_left hlt base.index)).symm
      · have hle' : base.index + offset ≤ (base.shift p).index := Nat.add_le_add_left hle base.index
        rw [walk_of_le _ hle, walk_of_le _ hle']
        rfl

/-- A place found from the start of a text, seen from where the text starts. -/
theorem shift_locate (base : Position) (h : source.toList = cs ++ rest) :
    base.shift (locate source (byteLength cs)) = base.after cs := by
  rw [locate_eq_after h, shift_after (Nat.le_refl 1), shift_start]

/-- A place behind the first of two texts is the place in the second, seen from where the first ends.
The offset need not fall on a character, and may lie behind the end. -/
theorem locate_append (s t : String) (offset : Nat) :
    locate (s ++ t) (s.utf8ByteSize + offset) = (locate s s.utf8ByteSize).shift (locate t offset) := by
  have hover : (after ⟨0, 1, 0⟩ s.toList).index ≤ s.utf8ByteSize + offset := by
    rw [← locate_end, locate_index]
    exact Nat.le_add_right ..
  have hshift := shift_walk (locate s s.utf8ByteSize) ⟨0, 1, 0⟩ offset t.toList (Nat.le_refl 1)
  rw [shift_start, locate_index] at hshift
  calc locate (s ++ t) (s.utf8ByteSize + offset)
      = walk (s.utf8ByteSize + offset) (s.toList ++ t.toList) 0 1 0 := by
        rw [locate, String.toList_append]
    _ = walk (s.utf8ByteSize + offset) t.toList (locate s s.utf8ByteSize).index
          (locate s s.utf8ByteSize).line (locate s s.utf8ByteSize).column := by
        rw [locate_end]
        exact walk_append t.toList hover
    _ = (locate s s.utf8ByteSize).shift (locate t offset) := by
        rw [locate_index]
        exact hshift.symm

theorem locate_append_of_le (t : String) (h : offset ≤ source.utf8ByteSize) :
    locate (source ++ t) offset = locate source offset := by
  have hstop : offset ≤ (after ⟨0, 1, 0⟩ source.toList).index := by
    rwa [← locate_end, locate_index]
  rw [locate, locate, String.toList_append]
  exact walk_append_of_le t.toList hstop

/-- The line and the column of a place; places on earlier lines come first. -/
def lineColumn (p : Position) : ℕ ×ₗ ℕ := toLex (p.line, p.column)

theorem lineColumn_lt_next : p.lineColumn < (p.next c).lineColumn := by
  rw [lineColumn, lineColumn, Prod.Lex.toLex_lt_toLex, next]
  split
  · exact .inl (Nat.lt_succ_self _)
  · exact .inr ⟨rfl, Nat.lt_succ_self _⟩

theorem lineColumn_le_after : p.lineColumn ≤ (p.after cs).lineColumn := by
  induction cs generalizing p with
  | nil => exact le_rfl
  | cons c rest ih => exact le_trans (le_of_lt lineColumn_lt_next) ih

theorem lineColumn_lt_after (h : cs ≠ []) : p.lineColumn < (p.after cs).lineColumn := by
  cases cs with
  | nil => exact absurd rfl h
  | cons c rest => exact lt_of_lt_of_le lineColumn_lt_next lineColumn_le_after

/-- What stands in front of an offset that falls on a character, or on the end. -/
theorem exists_byteLength_of_isValid (h : String.Pos.Raw.IsValid source ⟨offset⟩) :
    ∃ front rest, source.toList = front ++ rest ∧ byteLength front = offset := by
  obtain ⟨s, t, hsource, hoffset⟩ := String.Pos.Raw.isValid_iff_exists_append.1 h
  refine ⟨s.toList, t.toList, by rw [hsource, String.toList_append], ?_⟩
  rw [byteLength_toList]
  exact (congrArg String.Pos.Raw.byteIdx hoffset).symm

theorem strictMonoOn_lineColumn_locate (source : String) :
    StrictMonoOn (fun offset => (locate source offset).lineColumn)
      {offset | String.Pos.Raw.IsValid source ⟨offset⟩} := by
  intro i hi j hj hlt
  obtain ⟨front, rest, hfront, rfl⟩ := exists_byteLength_of_isValid hi
  obtain ⟨front', rest', hfront', rfl⟩ := exists_byteLength_of_isValid hj
  obtain ⟨between, rfl⟩ :=
    prefix_of_byteLength_le (hfront.symm.trans hfront') (Nat.le_of_lt hlt)
  have hbetween : between ≠ [] := by
    rintro rfl
    rw [List.append_nil] at hlt
    exact Nat.lt_irrefl _ hlt
  simp only [locate_eq_after hfront, locate_eq_after hfront', after_append]
  exact lineColumn_lt_after hbetween

end TwinView.Position
