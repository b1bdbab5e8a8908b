import TwinView.Proofs.Text.Blanks
import TwinView.Proofs.Text.Positions
import TwinView.Server.Fragment

/-!
Where a refused block is blamed. The compiler gives an offset in the client function of the block, and
the place in the template is found by looking for the fragment in that function. The place is right
for every character of the fragment unless the text of the fragment also occurs further in front, in
the parameters and keywords of its own wrapper. Wherever it is, its line and its column are those of its
offset, as the place of the block and the place in the block go together like places in two texts.
-/

namespace TwinView

namespace Server

open Script Text

/-- Where a text first occurs in another. -/
structure FirstIn (text cs front : List Char) : Prop where
  found : ∃ rest, cs = front ++ text ++ rest
  first : ∀ front' rest, cs = front' ++ text ++ rest → front.length ≤ front'.length

variable {text cs front rest : List Char}

theorem findFrom_eq_some (here : Nat) (h : cs = front ++ text ++ rest) :
    ∃ front', FirstIn text cs front' ∧ findFrom text here cs = some (here + byteLength front') := by
  induction cs generalizing front here with
  | nil =>
      have htext : text = [] := by
        have := congrArg List.length h
        exact List.eq_nil_of_length_eq_zero (by simp at this; omega)
      subst htext
      exact ⟨[], ⟨⟨[], rfl⟩, fun _ _ _ => Nat.zero_le _⟩, rfl⟩
  | cons c tail ih =>
      by_cases hp : text <+: c :: tail
      · refine ⟨[], ⟨?_, fun _ _ _ => Nat.zero_le _⟩, ?_⟩
        · obtain ⟨rest', hr⟩ := hp
          exact ⟨rest', hr.symm⟩
        · rw [findFrom, if_pos (List.isPrefixOf_iff_prefix.2 hp)]
          rfl
      · -- no occurrence starts at the first character, so each one lies in the rest
        have hin {front' rest' : List Char} (h' : c :: tail = front' ++ text ++ rest') :
            ∃ more, front' = c :: more ∧ tail = more ++ text ++ rest' := by
          cases front' with
          | nil => exact absurd ⟨rest', h'.symm⟩ hp
          | cons d more =>
              simp only [List.cons_append, List.cons.injEq] at h'
              exact ⟨more, by rw [h'.1], h'.2⟩
        obtain ⟨more, -, ht⟩ := hin h
        obtain ⟨front', hf, he⟩ := ih (here + c.utf8Size) ht
        refine ⟨c :: front', ⟨?_, ?_⟩, ?_⟩
        · obtain ⟨rest', hr⟩ := hf.found
          exact ⟨rest', by rw [hr, List.cons_append, List.cons_append]⟩
        · intro front'' rest'' h''
          obtain ⟨more', rfl, ht'⟩ := hin h''
          exact Nat.succ_le_succ (hf.first more' rest'' ht')
        · rw [findFrom, if_neg (by rwa [List.isPrefixOf_iff_prefix]), he, byteLength, Nat.add_assoc]

/-- The text of a fragment occurs in its client function in front of the fragment itself. -/
def occursBefore (b : CodeBlock) : Prop :=
  ∃ n < (b.clientOpening false).toList.length,
    (trim b.value).toList <+: (clientCode b).toList.drop n

instance (b : CodeBlock) : Decidable (occursBefore b) :=
  inferInstanceAs (Decidable (∃ n < (b.clientOpening false).toList.length, _))

variable {b : CodeBlock}

theorem clientCode_toList (b : CodeBlock) : (clientCode b).toList =
    (b.clientOpening false).toList ++ (trim b.value).toList ++ (b.clientClosing false).toList := by
  rw [clientCode, CodeBlock.clientCode, String.toList_append, String.toList_append]

/-- A fragment that does not occur in front of itself is found where it stands. -/
theorem eq_opening_of_firstIn (hf : FirstIn (trim b.value).toList (clientCode b).toList front)
    (hb : ¬ occursBefore b) : front = (b.clientOpening false).toList := by
  have hle := hf.first _ _ (clientCode_toList b)
  obtain ⟨rest, hr⟩ := hf.found
  have hge : (b.clientOpening false).toList.length ≤ front.length := by
    refine Nat.le_of_not_lt fun hlt => hb ⟨front.length, hlt, ?_⟩
    rw [hr, List.append_assoc, List.drop_left]
    exact List.prefix_append _ _
  have heq := hr.symm.trans (clientCode_toList b)
  rw [List.append_assoc, List.append_assoc] at heq
  exact List.append_inj_left heq (Nat.le_antisymm hle hge)

theorem byteLength_lt_of_firstIn (hf : FirstIn (trim b.value).toList (clientCode b).toList front)
    (hb : occursBefore b) : byteLength front < byteLength (b.clientOpening false).toList := by
  obtain ⟨n, hn, rest, hr⟩ := hb
  have hlt : front.length < (b.clientOpening false).toList.length := by
    have hsplit : (clientCode b).toList =
        (clientCode b).toList.take n ++ (trim b.value).toList ++ rest := by
      rw [List.append_assoc, hr, List.take_append_drop]
    have := hf.first _ _ hsplit
    rw [List.length_take] at this
    omega
  obtain ⟨rest', hr'⟩ := hf.found
  have heq := hr'.symm.trans (clientCode_toList b)
  rw [List.append_assoc, List.append_assoc] at heq
  have htake : byteLength ((b.clientOpening false).toList.take front.length) =
      byteLength front := by
    have := congrArg (List.take front.length) heq
    rw [List.take_left, List.take_append_of_le_length (Nat.le_of_lt hlt)] at this
    rw [← this]
  have hdrop : 0 < byteLength ((b.clientOpening false).toList.drop front.length) :=
    byteLength_pos fun hnil => absurd (List.drop_eq_nil_iff.1 hnil) (Nat.not_le_of_lt hlt)
  calc byteLength front
      < byteLength front + byteLength ((b.clientOpening false).toList.drop front.length) :=
        Nat.lt_add_of_pos_right hdrop
    _ = byteLength (b.clientOpening false).toList := by
        rw [← htake, ← byteLength_append, List.take_append_drop]

theorem placeInTemplate_eq
    (hf : findFrom (trim b.value).toList 0 (clientCode b).toList = some (byteLength front))
    (k : Nat) : placeInTemplate b k =
      let offset := min (k + byteLength (b.value.toList.takeWhile isBlank) - byteLength front)
        (byteLength b.value.toList)
      { (b.position.getD ⟨0, 1, 0⟩).shift (Position.locate b.value offset) with
        index := (b.position.getD ⟨0, 1, 0⟩).index + offset } := by
  have hlead : byteLength b.value.toList - byteLength (trimStart b.value).toList =
      byteLength (b.value.toList.takeWhile isBlank) := by
    have := byteLength_append (b.value.toList.takeWhile isBlank) (b.value.toList.dropWhile isBlank)
    rw [List.takeWhile_append_dropWhile] at this
    rw [trimStart, String.toList_ofList]
    omega
  simp only [placeInTemplate, hf, Option.getD_some, hlead, Position.shift]

/-- An error at a character of a fragment is placed at that character of the template, counted from
the place of the block, unless the fragment occurs in front of itself. -/
theorem placeInTemplate_iff_not_occursBefore {pre post : List Char} {c : Char}
    (h : (trim b.value).toList = pre ++ c :: post) :
    placeInTemplate b (byteLength (b.clientOpening false).toList + byteLength pre) =
        (b.position.getD ⟨0, 1, 0⟩).after (b.value.toList.takeWhile isBlank ++ pre) ↔
      ¬ occursBefore b := by
  obtain ⟨front, hf, hfound⟩ := findFrom_eq_some 0 (clientCode_toList b)
  rw [Nat.zero_add] at hfound
  obtain ⟨tail, hvalue, -⟩ := exists_trim b.value
  have hsplit : b.value.toList = (b.value.toList.takeWhile isBlank ++ pre) ++ (c :: post ++ tail) := by
    rw [h] at hvalue
    simpa only [List.append_assoc] using hvalue
  have hlength := congrArg byteLength hsplit
  rw [byteLength_append, byteLength_append (c :: post)] at hlength
  have hc : 0 < byteLength (c :: post) := byteLength_pos (List.cons_ne_nil _ _)
  have hpre := byteLength_append (b.value.toList.takeWhile isBlank) pre
  rw [placeInTemplate_eq hfound]
  constructor
  · intro heq hb
    have hlt := byteLength_lt_of_firstIn hf hb
    have hindex := congrArg Position.index heq
    rw [Position.after_index] at hindex
    simp only at hindex
    omega
  · intro hb
    have hfront := eq_opening_of_firstIn hf hb
    have hoffset : min (byteLength (b.clientOpening false).toList + byteLength pre +
          byteLength (b.value.toList.takeWhile isBlank) - byteLength front)
        (byteLength b.value.toList) = byteLength (b.value.toList.takeWhile isBlank ++ pre) := by
      rw [hfront]
      omega
    have hshift := Position.shift_locate (b.position.getD ⟨0, 1, 0⟩) hsplit
    simp only [hoffset, hshift, ← Position.after_index]

/-- An error at the second line of a fragment that starts behind a line break: both line breaks and the
column on the new line are counted. -/
theorem placeInTemplate_iff_not_occursBefore_lines :
    ∃ b : CodeBlock, b.position = some ⟨40, 3, 10⟩ ∧
      (trim b.value).toList = "let é =\n ".toList ++ ';' :: [] ∧
      placeInTemplate b (byteLength (b.clientOpening false).toList +
        byteLength "let é =\n ".toList) = ⟨53, 5, 1⟩ := by
  obtain ⟨b, hb⟩ : ∃ b : CodeBlock, b = ⟨.statement, " \n let é =\n ; ", some ⟨40, 3, 10⟩⟩ := ⟨_, rfl⟩
  have htrim : (trim b.value).toList = "let é =\n ".toList ++ ';' :: [] := by
    rw [hb]
    decide
  have hplace := (placeInTemplate_iff_not_occursBefore htrim).2 (by rw [hb]; decide +kernel)
  refine ⟨b, by rw [hb], htrim, hplace.trans ?_⟩
  rw [hb]
  decide

/-- The keyword of the wrapper is taken for the fragment, and the error is placed behind the block. -/
theorem not_placed_return :
    ∃ b : CodeBlock, b.position = some ⟨100, 3, 10⟩ ∧
      (trim b.value).toList = [] ++ 'r' :: "eturn".toList ∧
      placeInTemplate b (byteLength (b.clientOpening false).toList + byteLength []) =
        ⟨106, 3, 16⟩ ∧
      (b.position.getD ⟨0, 1, 0⟩).after (b.value.toList.takeWhile isBlank ++ []) = ⟨100, 3, 10⟩ := by
  refine ⟨⟨.expression, "return", some ⟨100, 3, 10⟩⟩, rfl, ?_, ?_, ?_⟩
  · decide
  · decide
  · decide

/-- The place in the template is a place in the value, seen from where the block stands. -/
theorem exists_placeInTemplate_eq_shift (b : CodeBlock) (k : Nat) : ∃ offset ≤ b.value.utf8ByteSize,
    placeInTemplate b k = (b.position.getD ⟨0, 1, 0⟩).shift (Position.locate b.value offset) := by
  refine ⟨_, ?_, by rw [Position.shift, Position.locate_index, placeInTemplate]⟩
  rw [byteLength_toList]
  exact Nat.min_le_right ..

/-- If a block stands in its template where it says, then the line and the column of an error are those
of its offset in the template, wherever in the value the error is placed. -/
theorem exists_placeInTemplate_eq_locate {before behind : String}
    (h : b.position =
      some (Position.locate (before ++ b.value ++ behind) before.utf8ByteSize)) (k : Nat) :
    ∃ offset ≤ b.value.utf8ByteSize, placeInTemplate b k =
      Position.locate (before ++ b.value ++ behind) (before.utf8ByteSize + offset) := by
  obtain ⟨offset, hle, hplace⟩ := exists_placeInTemplate_eq_shift b k
  have hstart : b.position.getD ⟨0, 1, 0⟩ = Position.locate before before.utf8ByteSize := by
    rw [h, Option.getD_some, String.append_assoc, Position.locate_append_of_le _ (Nat.le_refl _)]
  have hin : before.utf8ByteSize + offset ≤ (before ++ b.value).utf8ByteSize := by
    rw [String.utf8ByteSize_append]
    exact Nat.add_le_add_left hle _
  refine ⟨offset, hle, ?_⟩
  rw [hplace, hstart, Position.locate_append_of_le _ hin, Position.locate_append]

/-- Lines and columns tell the characters of a text apart: a later character has a later place, and the
place fixes the offset. The place of a character in two texts put together is its place in the second
one seen from the end of the first, and this is how a place in a block and the place of the block give a
place in the template. -/
theorem places_tell_offsets_apart :
    (∀ source : String, StrictMonoOn (fun offset => (Position.locate source offset).lineColumn)
      {offset | String.Pos.Raw.IsValid source ⟨offset⟩}) ∧
    (∀ source : String, Set.InjOn (fun offset => (Position.locate source offset).lineColumn)
      {offset | String.Pos.Raw.IsValid source ⟨offset⟩}) ∧
    (∀ (s t : String) (offset : Nat), Position.locate (s ++ t) (s.utf8ByteSize + offset) =
      (Position.locate s s.utf8ByteSize).shift (Position.locate t offset)) ∧
    ∀ (b : CodeBlock) (k : Nat), ∃ offset ≤ b.value.utf8ByteSize, placeInTemplate b k =
      (b.position.getD ⟨0, 1, 0⟩).shift (Position.locate b.value offset) :=
  ⟨Position.strictMonoOn_lineColumn_locate,
    fun source => (Position.strictMonoOn_lineColumn_locate source).injOn,
    Position.locate_append, exists_placeInTemplate_eq_shift⟩

/-- Characters of several bytes on both sides of a carriage return and a line feed, the text cut between
the two: only the line feed starts a line, and the columns in front of the cut do not count behind it. -/
theorem places_tell_offsets_apart_seam :
    (String.Pos.Raw.IsValid "é\r\n日x" ⟨2⟩ ∧ String.Pos.Raw.IsValid "é\r\n日x" ⟨7⟩ ∧
      (Position.locate "é\r\n日x" 2).lineColumn < (Position.locate "é\r\n日x" 7).lineColumn) ∧
    Position.locate ("é\r" ++ "\n日x") ("é\r".utf8ByteSize + 4) =
      (Position.locate "é\r" "é\r".utf8ByteSize).shift (Position.locate "\n日x" 4) ∧
    Position.locate "é\r" "é\r".utf8ByteSize = ⟨3, 1, 2⟩ ∧ Position.locate "\n日x" 4 = ⟨4, 2, 1⟩ ∧
    Position.shift ⟨3, 1, 2⟩ ⟨4, 2, 1⟩ = ⟨7, 2, 1⟩ := by
  have hfront : String.Pos.Raw.IsValid "é\r\n日x" ⟨2⟩ := by decide
  have hbehind : String.Pos.Raw.IsValid "é\r\n日x" ⟨7⟩ := by decide
  obtain ⟨hmono, -, happend, -⟩ := places_tell_offsets_apart
  exact ⟨⟨hfront, hbehind, hmono _ hfront hbehind (by decide)⟩, happend _ _ _, by decide, by decide, rfl⟩

end Server

end TwinView
