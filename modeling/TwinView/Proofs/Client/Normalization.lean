import TwinView.Client.Source
import TwinView.Proofs.Markup.Blanks
import TwinView.Proofs.Script.Tiling
import TwinView.Proofs.Template.Literals
import TwinView.Proofs.Text.Breaks

/-!
Normalization of blanks on the client. Items can be normalized before they are written: writing them with
normalization is writing the normalized items without. Inside `pre` and `script` everything keeps its blanks;
elsewhere they are collapsed in tags, in attributes and in all other texts.
-/

namespace TwinView.Client

open Text Script

variable {s : Settings} {verbatim : Bool} {depth : Nat}

def Value.normalized (verbatim : Bool) : Value → Value
  | .text value => .text (shownAs verbatim value)
  | value => value

def normalizedAttribute (verbatim : Bool) (a : String × Value) : String × Value :=
  (shownAs verbatim a.1, a.2.normalized verbatim)

mutual

def Item.normalized (verbatim : Bool) : Item → Item
  | .text value => .text (shownAs verbatim value)
  | .special tag value => .special (shownAs verbatim tag) (shownAs verbatim value)
  | .element tag attributes children =>
    let verbatim := verbatim || isVerbatimTag tag
    let shown := trimmed verbatim (·.1.isEdgeText) (normalizedItems verbatim children)
    .element (shownAs verbatim tag) (attributes.map (normalizedAttribute verbatim)) (shown.map (·.2))
  | item => item

def normalizedItems (verbatim : Bool) : List Item → List (Item × Item)
  | [] => []
  | item :: rest => (item, item.normalized verbatim) :: normalizedItems verbatim rest

end

theorem normalizedItems_eq (items : List Item) :
    normalizedItems verbatim items = items.map fun item => (item, item.normalized verbatim) := by
  induction items with
  | nil => rfl
  | cons item rest ih => rw [normalizedItems, ih, List.map_cons]

def normalizedList (verbatim : Bool) (items : List Item) : List Item :=
  (trimmed verbatim Item.isEdgeText items).map (·.normalized verbatim)

theorem normalized_element (tag : String) (attributes : List (String × Value)) (children : List Item) :
    (Item.element tag attributes children).normalized verbatim =
      .element (shownAs (verbatim || isVerbatimTag tag) tag)
        (attributes.map (normalizedAttribute (verbatim || isVerbatimTag tag)))
        (normalizedList (verbatim || isVerbatimTag tag) children) := by
  simp only [Item.normalized, normalizedItems_eq, trimmed_map, List.map_map, normalizedList,
    Function.comp_def]

theorem isData_normalized (item : Item) : (item.normalized verbatim).isData = item.isData := by
  cases item <;> rfl

theorem convertText_of_spaces {value : String} (h : ∀ c ∈ value.toList, Markup.isCollapsible c → c = ' ') :
    convertText s value = value := by
  have hreplace (blank : Char) (new : String) (hblank : Markup.isCollapsible blank) (hne : blank ≠ ' ') :
      replaceChar blank new value = value := by
    rw [← String.toList_inj, toList_replaceChar]
    exact replaced_of_not_mem fun hmem => hne (h blank hmem hblank)
  unfold convertText
  simp only [hreplace '\t' s.indent rfl (by decide),
    hreplace '\n' s.newline rfl (by decide), ite_self]

theorem convertText_normalize (value : String) :
    convertText s (Markup.normalize value) = Markup.normalize value :=
  convertText_of_spaces fun _ => Markup.eq_space_of_mem_normalize

theorem writeText_normalized (hs : s.normalizeWhitespace = true) (inside : Bool) (value : String) :
    writeText s verbatim value = writeText s.verbatim inside (shownAs verbatim value) := by
  have hright (value : String) : writeText s.verbatim inside value = stringLiteral (convertText s value) := by
    unfold writeText
    rw [if_neg (by simp [Settings.verbatim])]
    rfl
  rw [hright]
  unfold writeText shownAs
  cases verbatim with
  | true => rfl
  | false =>
      by_cases hvalue : value = ""
      · simp [hvalue]
      · simp [hs, hvalue, convertText_normalize]

theorem shownAs_eq_empty_iff {value : String} : shownAs verbatim value = "" ↔ value = "" := by
  unfold shownAs
  split
  · rfl
  · next h => simp_all [Markup.normalize_ne_empty]

theorem writeValue_normalized (hs : s.normalizeWhitespace = true) (inside : Bool) (value : Value) :
    writeValue s verbatim value = writeValue s.verbatim inside (value.normalized verbatim) := by
  cases value with
  | text value => exact writeText_normalized hs inside value
  | _ => rfl

theorem writeAttributes_normalized (hs : s.normalizeWhitespace = true) (inside : Bool)
    (attributes : List (String × Value)) : writeAttributes s depth verbatim attributes =
      writeAttributes s.verbatim depth inside (attributes.map (normalizedAttribute verbatim)) := by
  have hone (a : String × Value) : writeText s verbatim a.1 ++ " : " ++ writeValue s verbatim a.2 =
      writeText s.verbatim inside (normalizedAttribute verbatim a).1 ++ " : " ++
        writeValue s.verbatim inside (normalizedAttribute verbatim a).2 := by
    rw [writeText_normalized hs inside, writeValue_normalized hs inside]
    rfl
  unfold writeAttributes
  simp only [List.map_map, Function.comp_def, hone]
  rfl

section

variable {α : Type} {xs : List α} {f g : α → Item × String}

theorem any_isData_congr (h : ∀ x ∈ xs, (f x).1.isData = (g x).1.isData) :
    (xs.map f).any (·.1.isData) = (xs.map g).any (·.1.isData) := by
  rw [Bool.eq_iff_iff]
  simp only [List.any_map, List.any_eq_true, Function.comp_apply]
  exact exists_congr fun x => and_congr_right fun hx => by rw [h x hx]

theorem writeList_congr (comma : Bool)
    (h : ∀ x ∈ xs, (f x).1.isData = (g x).1.isData ∧ (f x).2 = (g x).2) :
    writeList s depth comma (xs.map f) = writeList s.verbatim depth comma (xs.map g) := by
  induction xs generalizing comma with
  | nil => rfl
  | cons x rest ih =>
      obtain ⟨⟨hdata, hwritten⟩, hrest⟩ := List.forall_mem_cons.1 h
      have hmore := any_isData_congr fun y hy => (hrest y hy).1
      simp only [List.map_cons, writeList, hdata, hwritten, hmore, ih _ hrest]
      rfl

theorem writeChildren_congr (h : ∀ x ∈ xs, (f x).1.isData = (g x).1.isData ∧ (f x).2 = (g x).2) :
    writeChildren s depth (xs.map f) = writeChildren s.verbatim depth (xs.map g) := by
  unfold writeChildren
  rw [any_isData_congr fun x hx => (h x hx).1, writeList_congr _ h, List.isEmpty_map, List.isEmpty_map]
  rfl

end

theorem writeItems_eq (items : List Item) :
    writeItems s depth verbatim items = items.map fun item => (item, writeItem s depth verbatim item) := by
  induction items with
  | nil => rfl
  | cons item rest ih => rw [writeItems, ih, List.map_cons]

theorem visible_writeItems (hs : s.normalizeWhitespace = true) (items : List Item) :
    visible s verbatim (writeItems s depth verbatim items) =
      (trimmed verbatim Item.isEdgeText items).map fun item => (item, writeItem s depth verbatim item) := by
  rw [writeItems_eq, visible, hs, Bool.true_and]
  cases verbatim with
  | true => rfl
  | false => exact Server.trimEdges_map _ _ items

theorem visible_verbatim (items : List (Item × String)) : visible s.verbatim verbatim items = items := rfl

def WritesNormalized (s : Settings) (item : Item) : Prop := ∀ depth verbatim inside,
  writeItem s depth verbatim item = writeItem s.verbatim depth inside (item.normalized verbatim)

section

variable (hs : s.normalizeWhitespace = true)

include hs

theorem writesNormalized_special (tag value : String) : WritesNormalized s (.special tag value) := by
  intro depth verbatim inside
  simp only [Item.normalized, writeItem, shownAs_eq_empty_iff, ← writeText_normalized hs]
  rfl

theorem writesNormalized_element (tag : String) (attributes : List (String × Value)) {children : List Item}
    (h : ∀ item ∈ children, WritesNormalized s item) :
    WritesNormalized s (.element tag attributes children) := by
  intro depth verbatim inside
  have hchildren (kept inside : Bool) :
      writeChildren s depth (visible s kept (writeItems s (depth + 1) kept children)) =
        writeChildren s.verbatim depth (visible s.verbatim inside
          (writeItems s.verbatim (depth + 1) inside (normalizedList kept children))) := by
    rw [visible_writeItems hs, visible_verbatim, writeItems_eq, normalizedList, List.map_map]
    refine writeChildren_congr fun item hitem => ⟨(isData_normalized item).symm, ?_⟩
    exact h item (trimmed_subset _ _ _ hitem) _ _ _
  rw [normalized_element]
  simp only [writeItem]
  rw [writeText_normalized hs, writeAttributes_normalized hs, hchildren]

end

mutual

theorem writesNormalized (hs : s.normalizeWhitespace = true) : ∀ item, WritesNormalized s item
  | .text value => fun _ _ inside => writeText_normalized hs inside value
  | .code _ => fun _ _ _ => rfl
  | .note _ => fun _ _ _ => rfl
  | .special tag value => writesNormalized_special hs tag value
  | .element tag attributes children =>
    writesNormalized_element hs tag attributes (writesNormalized_items hs children)

theorem writesNormalized_items (hs : s.normalizeWhitespace = true) :
    ∀ items : List Item, ∀ item ∈ items, WritesNormalized s item
  | [] => fun _ h => nomatch h
  | item :: rest => List.forall_mem_cons.2 ⟨writesNormalized hs item, writesNormalized_items hs rest⟩

end

/-- The item of a view: its root, or a fragment of several. -/
def rootItem : List Item → Item
  | [item] => item
  | items => .element "" [] items

/-- What is written of the roots of a view, on the line of the call or on the next one. -/
def WritesRoot (s : Settings) (roots : List Node) (root : Item) : Prop :=
  ∃ gap depth, (gap = "" ∨ gap = line s 1) ∧ writeRoots s roots = .ok (gap ++ writeItem s depth false root)

theorem writesRoot : ∀ (roots : List Node) {items : List Item},
    itemsOf s roots = .ok items → WritesRoot s roots (rootItem items)
  | [], _, h => by
      obtain rfl := Except.ok.inj h
      exact ⟨"", 0, .inl rfl, rfl⟩
  | [root], _, h => by
      obtain ⟨item, hitem, h⟩ := bind_eq_ok.1 h
      obtain rfl := Except.ok.inj h
      refine ⟨if item.hasContent then line s 1 else "", 1, ?_, ?_⟩
      · split
        · exact .inr rfl
        · exact .inl rfl
      · rw [writeRoots, hitem]
        rfl
  | first :: second :: rest, items, h => by
      have hwrite : writeRoots s (first :: second :: rest) = .ok (writeItem s 0 false (.element "" [] items)) := by
        rw [writeRoots, h]
        · rfl
        · nofun
      obtain ⟨_, -, h⟩ := bind_eq_ok.1 h
      obtain ⟨_, hrest, h⟩ := bind_eq_ok.1 h
      obtain rfl := Except.ok.inj h
      obtain ⟨_, -, hrest⟩ := bind_eq_ok.1 hrest
      obtain ⟨_, -, hrest⟩ := bind_eq_ok.1 hrest
      obtain rfl := Except.ok.inj hrest
      exact ⟨"", 0, .inl rfl, hwrite⟩

theorem WritesRoot.normalized (hs : s.normalizeWhitespace = true) {roots : List Node} {root : Item}
    (h : WritesRoot s roots root) : ∃ gap depth, (gap = "" ∨ gap = line s 1) ∧
      writeRoots s roots = .ok (gap ++ writeItem s.verbatim depth false (root.normalized false)) := by
  obtain ⟨gap, depth, hgap, hwrite⟩ := h
  exact ⟨gap, depth, hgap, by rw [hwrite, writesNormalized hs root depth false false]⟩

end TwinView.Client
