import TwinView.Proofs.Client.Names
import TwinView.Proofs.Client.Trees

/-!
Client text is read back. A written list has a comma in front of each item that takes a place and none
at a comment; so an item is read as its tree, and the whole text as a program in which each view is bound
to its root.
-/

namespace TwinView.Client

open Text Script

variable {s : Settings} {verbatim : Bool} {depth : Nat} {name : String} {v : Value}
  {ls : List Lexeme} {lss : List (List Lexeme)}

/-! Attributes. -/

theorem lexes_writeValue (hs : BlankLayout s) (verbatim : Bool) (h : v.IsReadable) :
    ∃ ls, Lexes Apart (writeValue s verbatim v) ls ∧ Operand (valueTree s verbatim v) ls := by
  cases v with
  | null => exact ⟨_, lexed_word "null" (by decide) (by decide), operand_null⟩
  | on => exact ⟨_, lexed_word "true" (by decide) (by decide), operand_true⟩
  | text value => exact ⟨_, (lexes_writeText hs verbatim h).anywhere, operand_text _⟩
  | code source =>
      obtain ⟨ls, hlexes, hoperand⟩ := exists_operand_codeTree h
      exact ⟨ls, hlexes.anywhere, hoperand⟩

def writeAttribute (s : Settings) (verbatim : Bool) (a : String × Value) : String :=
  writeText s verbatim a.1 ++ " : " ++ writeValue s verbatim a.2

theorem lexes_writeAttribute (hs : BlankLayout s) (verbatim : Bool) {a : String × Value}
    (hname : IsBasicText a.1) (h : a.2.IsReadable) : ∃ ls, Lexes Apart (writeAttribute s verbatim a) ls ∧
      Property (attributeProperty s verbatim a) ls := by
  obtain ⟨ls, hlexes, hoperand⟩ := lexes_writeValue hs verbatim h
  refine ⟨.text (shownText s verbatim a.1) :: .mark ':' :: ls, ?_, ls, rfl, hoperand⟩
  have hcolon : Lexes Anywhere " : " [.mark ':'] := by
    have hgap : Lexed Anywhere [' '] [] := lexed_gap (by decide)
    exact hgap.before (Lexed.before (lexed_mark (by decide)) hgap)
  rw [writeAttribute, String.append_assoc]
  exact (lexes_writeText hs verbatim hname).before (hcolon.before hlexes)

theorem forall₂_writeAttribute (hs : BlankLayout s) (verbatim : Bool) {attributes : List (String × Value)}
    (h : ∀ a ∈ attributes, IsBasicText a.1 ∧ a.2.IsReadable) :
    ∃ lss, List.Forall₂ (Lexes Apart) (attributes.map (writeAttribute s verbatim)) lss ∧
      List.Forall₂ Property (attributes.map (attributeProperty s verbatim)) lss := by
  induction attributes with
  | nil => exact ⟨[], .nil, .nil⟩
  | cons a attributes ih =>
      obtain ⟨⟨hname, hvalue⟩, hmore⟩ := List.forall_mem_cons.1 h
      obtain ⟨ls, hlexes, hproperty⟩ := lexes_writeAttribute hs verbatim hname hvalue
      obtain ⟨lss, hall, hproperties⟩ := ih hmore
      exact ⟨ls :: lss, .cons hlexes hall, .cons hproperty hproperties⟩

/-- An object of written properties; a lone one stands on the same line. -/
def writeObject (s : Settings) (depth : Nat) : List String → String
  | [] => ""
  | [one] => ", \x7b " ++ one ++ " \x7d"
  | several =>
    ", \x7b" ++ ",".intercalate (several.map (line s (depth + 1) ++ ·)) ++ line s depth ++ "\x7d"

theorem writeAttributes_eq (attributes : List (String × Value)) :
    writeAttributes s depth verbatim attributes =
      writeObject s depth (attributes.map (writeAttribute s verbatim)) := by
  rw [writeAttributes, writeObject.eq_def]
  rfl

theorem lexes_writeObject (hs : BlankLayout s) (depth : Nat) {first : String} {written : List String}
    (hfirst : Lexes Apart first ls) (h : List.Forall₂ (Lexes Apart) written lss) :
    Lexes Anywhere (writeObject s depth (first :: written))
      (.mark ',' :: .mark '\x7b' :: (ls ++ (further lss ++ [.mark '\x7d']))) := by
  have hcomma : Lexes Anywhere ", " [.mark ','] :=
    Lexed.before (lexed_mark (by decide)) (lexed_gap (by decide))
  have hbracketed {gap gap' : String} (hgap : ∀ c ∈ gap.toList, isGap c) (hgap' : ∀ c ∈ gap'.toList, isGap c) :=
    hcomma.before (lexes_bracketed (c := '\x7b') (d := '\x7d') (by decide) (by decide) hgap hgap' hfirst h)
  cases h with
  | nil =>
      have hgap : ∀ c ∈ " ".toList, isGap c := by decide
      simpa [Lexes, writeObject] using hbracketed hgap hgap
  | cons _ _ =>
      simpa [Lexes, writeObject] using hbracketed (isGap_line hs (depth + 1)) (isGap_line hs depth)

/-- The object of attributes is one more item of the list behind the tag. -/
theorem lexes_writeAttributes (hs : BlankLayout s) (depth : Nat) (verbatim : Bool)
    {attributes : List (String × Value)} (h : ∀ a ∈ attributes, IsBasicText a.1 ∧ a.2.IsReadable) :
    ∃ lss, Lexes Anywhere (writeAttributes s depth verbatim attributes) (further lss) ∧
      List.Forall₂ Operand (if attributes.isEmpty then []
        else [objectOf (attributes.map (attributeProperty s verbatim))]) lss := by
  rw [writeAttributes_eq]
  cases attributes with
  | nil => exact ⟨[], .nil, .nil⟩
  | cons a attributes =>
      obtain ⟨lss, hall, hproperties⟩ := forall₂_writeAttribute hs verbatim h
      cases hall with
      | cons hfirst hmore =>
          cases hproperties with
          | cons hproperty hproperties =>
              have hobject := operand_object hproperty hproperties
              refine ⟨[_], ?_, .cons hobject .nil⟩
              simpa [further] using lexes_writeObject hs depth hfirst hmore

/-! Lists. -/

/-- An item with its text, and the entry that it is read as, wherever it stands. -/
structure ReadsAs (item : Item × String) (entry : Bool × Option Expr) : Prop where
  edge : item.1.isEdgeText = entry.1
  data : item.1.isData = entry.2.isSome
  lexes : ∃ ls, Lexes Anywhere item.2 ls ∧ ListEntry entry.2 ls

variable {items : List (Item × String)} {entries : List (Bool × Option Expr)}

def joined : List (List Lexeme) → List Lexeme
  | [] => []
  | ls :: lss => ls ++ further lss

def due (comma : Bool) (lss : List (List Lexeme)) : List Lexeme := if comma then further lss else joined lss

theorem lexes_comma (comma : Bool) :
    Lexes Anywhere (if comma then "," else "") (if comma then [.mark ','] else []) := by
  cases comma with
  | false => exact .nil
  | true => exact lexed_mark (by decide)

/-- A comma that is due stands in front of the first item that takes a place, or in front of a comment
before it. -/
theorem lexes_writeList (hs : BlankLayout s) (depth : Nat) (h : List.Forall₂ ReadsAs items entries) :
    ∃ lss, List.Forall₂ Operand (entries.filterMap (·.2)) lss ∧ items.any (·.1.isData) = !lss.isEmpty ∧
      ∀ comma : Bool, (comma → lss ≠ []) →
        Lexes Anywhere (writeList s depth comma items) (due comma lss) := by
  induction h with
  | nil =>
      refine ⟨[], .nil, rfl, fun comma hcomma => ?_⟩
      cases comma with
      | false => exact .nil
      | true => exact absurd rfl (hcomma rfl)
  | @cons item entry items entries h _ ih =>
      obtain ⟨lss, hall, hany, hlexes⟩ := ih
      obtain ⟨ls, hwritten, hentry⟩ := h.lexes
      have hdata := h.data
      obtain ⟨item, written⟩ := item
      obtain ⟨edge, tree⟩ := entry
      dsimp only at hdata hwritten hentry
      have hline : Lexes Anywhere (line s depth) [] := lexes_line hs depth
      have hitem (comma : Bool) := (lexes_comma comma).before (hline.before hwritten)
      cases tree with
      | none =>
          -- the comment has no lexemes, and no comma is due behind it
          obtain rfl : ls = [] := hentry
          refine ⟨lss, hall, by simp [hdata, hany], fun comma hcomma => ?_⟩
          have hdue : due comma lss =
              (if comma then [.mark ','] else []) ++ ([] ++ []) ++ due false lss := by
            cases comma with
            | false => rfl
            | true =>
                obtain ⟨ls, lss, rfl⟩ := List.exists_cons_of_ne_nil (hcomma rfl)
                rfl
          rw [writeList, hdata, hdue]
          have htext := (hitem comma).before (hlexes false Bool.noConfusion)
          rwa [← String.append_assoc] at htext
      | some e =>
          refine ⟨ls :: lss, .cons hentry hall, by simp [hdata], fun comma _ => ?_⟩
          have hmore : due (!lss.isEmpty) lss = further lss := by cases lss <;> rfl
          have hdue : due comma (ls :: lss) =
              (if comma then [.mark ','] else []) ++ ([] ++ ls) ++ due (!lss.isEmpty) lss := by
            rw [hmore]
            cases comma <;> rfl
          rw [writeList, hdata, hany, hdue]
          have htext := (hitem comma).before (hlexes (!lss.isEmpty) (by simp))
          rwa [← String.append_assoc] at htext

theorem lexes_writeChildren (hs : BlankLayout s) (depth : Nat) (h : List.Forall₂ ReadsAs items entries) :
    ∃ lss, List.Forall₂ Operand (entries.filterMap (·.2)) lss ∧
      Lexes Anywhere (writeChildren s depth items) (further lss) := by
  obtain ⟨lss, hall, hany, hlexes⟩ := lexes_writeList hs (depth + 1) h
  refine ⟨lss, hall, ?_⟩
  rw [writeChildren]
  split
  · next hempty =>
      obtain rfl := List.isEmpty_iff.1 hempty
      cases lss with
      | nil => exact .nil
      | cons => simp at hany
  · have hmore : due (!lss.isEmpty) lss = further lss := by cases lss <;> rfl
    have htext := (hlexes (!lss.isEmpty) (by simp)).before (lexes_line (P := Anywhere) hs depth)
    rwa [List.append_nil, hmore, ← hany] at htext

theorem head?_any_of_forall₂ (h : List.Forall₂ ReadsAs items entries) :
    items.head?.any (·.1.isEdgeText) = entries.head?.any (·.1) := by
  cases h with
  | nil => rfl
  | cons h _ => exact h.edge

theorem forall₂_trimEdges (h : List.Forall₂ ReadsAs items entries) :
    List.Forall₂ ReadsAs (Markup.trimEdges (·.1.isEdgeText) items) (Markup.trimEdges (·.1) entries) := by
  have hfirst : List.Forall₂ ReadsAs (if items.head?.any (·.1.isEdgeText) then items.tail else items)
      (if entries.head?.any (·.1) then entries.tail else entries) := by
    rw [head?_any_of_forall₂ h]
    split
    · simpa using List.forall₂_drop 1 h
    · exact h
  unfold Markup.trimEdges
  dsimp only
  generalize (if items.head?.any (·.1.isEdgeText) then items.tail else items) = items at hfirst
  generalize (if entries.head?.any (·.1) then entries.tail else entries) = entries at hfirst
  rw [List.getLast?_eq_head?_reverse, List.getLast?_eq_head?_reverse,
    head?_any_of_forall₂ (List.forall₂_reverse_iff.2 hfirst)]
  split
  · rw [List.dropLast_eq_take, List.dropLast_eq_take, hfirst.length_eq]
    exact List.forall₂_take _ hfirst
  · exact hfirst

theorem forall₂_visible (s : Settings) (verbatim : Bool) (h : List.Forall₂ ReadsAs items entries) :
    ∃ kept, List.Forall₂ ReadsAs (visible s verbatim items) kept ∧
      kept.filterMap (·.2) = shownItems s verbatim entries := by
  unfold visible shownItems
  split
  · exact ⟨_, forall₂_trimEdges h, rfl⟩
  · exact ⟨_, h, rfl⟩

/-! Items. -/

theorem readsAs_text (hs : BlankLayout s) {value : String} (h : IsBasicText value) :
    ReadsAs (.text value, writeText s verbatim value)
      (Markup.isNewlines value, some (.text 0 (shownText s verbatim value))) where
  edge := rfl
  data := rfl
  lexes := ⟨_, lexes_writeText hs verbatim h, operand_text _⟩

theorem readsAs_code {source : String} (h : IsClosedFunction source) :
    ReadsAs (.code source, source) (false, some (codeTree source)) where
  edge := rfl
  data := rfl
  lexes := exists_operand_codeTree h

theorem readsAs_note (value : String) : ReadsAs (.note value, blockComment value) (false, none) where
  edge := rfl
  data := rfl
  lexes := ⟨[], lexed_blockComment value, rfl⟩

theorem lexes_array (hs : BlankLayout s) (verbatim : Bool) {tag rest : String} {es : List Expr}
    (htag : IsBasicText tag) (hrest : Lexes Anywhere rest (further lss))
    (hes : List.Forall₂ Operand es lss) :
    ∃ ls, Lexes Anywhere ("[" ++ writeText s verbatim tag ++ rest ++ "]") ls ∧
      Operand (.array 0 (.text 0 (shownText s verbatim tag) :: es)) ls := by
  refine ⟨_, ?_, operand_array (operand_text _) hes⟩
  have hopen : Lexes Anywhere "[" [.mark '['] := lexed_mark (by decide)
  have hclose : Lexes Anywhere "]" [.mark ']'] := lexed_mark (by decide)
  have htext := hopen.before ((lexes_writeText hs verbatim htag).before (hrest.before hclose))
  simpa [String.append_assoc] using htext

theorem readsAs_special (hs : BlankLayout s) {tag value : String} (htag : IsBasicText tag)
    (hshown : shownText s verbatim tag = tag) (h : IsBasicText value) :
    ReadsAs (.special tag value, writeItem s depth verbatim (.special tag value))
      (false, some (listing tag [] (contentTrees s verbatim value))) where
  edge := rfl
  data := rfl
  lexes := by
    rw [writeItem, contentTrees]
    dsimp only
    split
    · have hrest : Lexes Anywhere "" (further []) := .nil
      have harray := lexes_array hs verbatim htag hrest .nil
      rwa [hshown] at harray
    · have hcomma : Lexes Anywhere "," [.mark ','] := lexed_mark (by decide)
      have hrest : Lexes Anywhere _ (further [[.text (shownText s verbatim value)]]) :=
        hcomma.before ((lexes_line hs (depth + 1)).before
          ((lexes_writeText hs verbatim h).before (lexes_line hs depth)))
      rw [← String.append_assoc, ← String.append_assoc] at hrest
      have harray := lexes_array hs verbatim htag hrest (.cons (operand_text _) .nil)
      rwa [hshown] at harray

/-- An element or a command. Inside some tags the blanks count. -/
theorem lexes_element (hs : BlankLayout s) {tag : String} {attributes : List (String × Value)}
    {children : List Item} {inside : Bool} (hinside : inside = (verbatim || isVerbatimTag tag))
    (hitem : (Item.element tag attributes children).IsReadable)
    (h : List.Forall₂ ReadsAs (writeItems s (depth + 1) inside children) entries) :
    ∃ ls, Lexes Anywhere (writeItem s depth verbatim (.element tag attributes children)) ls ∧
      Operand (listing (shownText s inside tag) (attributes.map (attributeProperty s inside))
        (shownItems s inside entries)) ls := by
  obtain ⟨htag, hattributes, -⟩ := hitem
  obtain ⟨lss, hlexes, hproperties⟩ := lexes_writeAttributes hs (depth + 1) inside hattributes
  obtain ⟨kept, hkept, hitems⟩ := forall₂_visible s inside h
  obtain ⟨lss', hoperands, hchildren⟩ := lexes_writeChildren hs depth hkept
  rw [hitems] at hoperands
  have hrest := hlexes.before hchildren
  rw [further, further, ← List.flatMap_append] at hrest
  have harray := lexes_array hs inside htag hrest (List.rel_append hproperties hoperands)
  rw [← String.append_assoc] at harray
  subst hinside
  rw [writeItem, listing, List.isEmpty_map]
  exact harray

variable {tag : String} {attributes : List (String × Value)} {properties : List (String × Expr)}
  {children : Except Error (List Item)} {item : Item}

theorem readsAs_element (hs : BlankLayout s) {inside : Bool}
    (hinside : inside = (verbatim || isVerbatimTag tag))
    (h : children >>= (fun items => .ok (.element tag attributes items)) = .ok item)
    (hitem : item.IsReadable)
    (hchildren : ∀ items, children = .ok items → Item.areReadable items →
      List.Forall₂ ReadsAs (writeItems s (depth + 1) inside items) entries) :
    ReadsAs (item, writeItem s depth verbatim item) (false, some (listing (shownText s inside tag)
      (attributes.map (attributeProperty s inside)) (shownItems s inside entries))) := by
  obtain ⟨items, hitems, h⟩ := bind_eq_ok.1 h
  obtain rfl := Except.ok.inj h
  exact ⟨rfl, rfl, lexes_element hs hinside hitem (hchildren items hitems hitem.2.2)⟩

/-- A command's tag is shown as it is, and is no tag inside which blanks count. -/
theorem readsAs_command (hs : BlankLayout s)
    (htag : isVerbatimTag tag = false ∧ ∀ c ∈ tag.toList, Markup.isCollapsible c = false)
    (h : children >>= (fun items => .ok (.element tag attributes items)) = .ok item)
    (hitem : item.IsReadable)
    (hproperties : attributes.map (attributeProperty s verbatim) = properties)
    (hchildren : ∀ items, children = .ok items → Item.areReadable items →
      List.Forall₂ ReadsAs (writeItems s (depth + 1) verbatim items) entries) :
    ReadsAs (item, writeItem s depth verbatim item)
      (false, some (listing tag properties (shownItems s verbatim entries))) := by
  have helement := readsAs_element hs (by rw [htag.1, Bool.or_false]) h hitem hchildren
  rwa [shownText_of_unblanked htag.2, hproperties] at helement

theorem map_view (view : Option Node) :
    (view.toList.map fun n => ("view", viewValue s n)).map (attributeProperty s verbatim) =
      view.toList.map fun n => ("view", viewTree s n) := by
  have hname : shownText s verbatim "view" = "view" := shownText_of_unblanked (by decide)
  cases view with
  | none => rfl
  | some n => simp [attributeProperty, hname, valueTree_viewValue]

theorem map_partName (name : String) :
    [("name", Value.text name)].map (attributeProperty s verbatim) =
      [("name", .text 0 (shownText s verbatim name))] := by
  have hname : shownText s verbatim "name" = "name" := shownText_of_unblanked (by decide)
  simp [attributeProperty, hname, valueTree]

theorem map_testAttributes (test : Option CodeBlock) :
    (testAttributes s test).map (attributeProperty s verbatim) =
      test.toList.map fun b => ("test", blockTree s b) := by
  have hname : shownText s verbatim "test" = "test" := shownText_of_unblanked (by decide)
  cases test with
  | none => rfl
  | some b => simp [testAttributes, attributeProperty, hname, valueTree, blockTree, blockCode]

/-! Nodes. -/

mutual

theorem readsAs_node (hs : BlankLayout s) (depth : Nat) (verbatim : Bool) : ∀ (n : Node) {item : Item},
    itemOf s n = .ok item → item.IsReadable →
      ReadsAs (item, writeItem s depth verbatim item) (isEdgeNode n, nodeTree s verbatim n)
  | .text .literal value _, item, h, hitem => by
      obtain rfl := Except.ok.inj h
      exact readsAs_text hs hitem
  | .text .unknown value _, item, h, hitem => by
      obtain rfl := Except.ok.inj h
      exact readsAs_code hitem
  | .text .comment value _, item, h, hitem => by
      obtain rfl := Except.ok.inj h
      exact readsAs_special hs hitem.1 (shownText_of_unblanked (by decide)) hitem.2
  | .text .codeComment value _, item, h, hitem => by
      obtain rfl := Except.ok.inj h
      exact readsAs_note value
  | .text .docType value _, item, h, hitem => by
      obtain rfl := Except.ok.inj h
      exact readsAs_special hs hitem.1 (shownText_of_unblanked (by decide)) hitem.2
  | .code b, item, h, hitem => by
      obtain rfl := Except.ok.inj h
      exact readsAs_code hitem
  | .element ⟨tag, attributes, children, _⟩, item, h, hitem => by
      have helement : ReadsAs (item, writeItem s depth verbatim item) _ :=
        readsAs_element hs rfl h hitem fun _ => readsAs_nodes hs (depth + 1) _ children
      rw [nodeTree]
      simp only [← valueTree_attributeValue]
      rwa [List.map_map] at helement
  | .view v, item, h, hitem => nomatch h
  | .choice ⟨branches, _⟩, item, h, hitem =>
      readsAs_command hs (by decide +kernel) h hitem rfl fun _ =>
        readsAs_branches hs (depth + 1) verbatim branches
  | .branch ⟨test, children, _⟩, item, h, hitem =>
      readsAs_command hs (by decide +kernel) h hitem (map_testAttributes test) fun _ =>
        readsAs_nodes hs (depth + 1) verbatim children
  | .loop ⟨each, within, count, data, children, _⟩, item, h, hitem =>
      readsAs_command hs (by decide +kernel) h hitem (map_commandAttributes (by simp; decide)) fun _ =>
        readsAs_nodes hs (depth + 1) verbatim children
  | .call ⟨view, data, index, count, key, _, children, _⟩, item, h, hitem =>
      readsAs_command hs (by decide +kernel) h hitem
        (by rw [List.map_append, map_view, map_commandAttributes (by simp; decide)]) fun _ =>
        readsAs_nodes hs (depth + 1) verbatim children
  | .part ⟨name, children, _⟩, item, h, hitem =>
      readsAs_command hs (by decide +kernel) h hitem (map_partName name) fun _ =>
        readsAs_nodes hs (depth + 1) verbatim children

theorem readsAs_nodes (hs : BlankLayout s) (depth : Nat) (verbatim : Bool) :
    ∀ (ns : List Node) {items : List Item}, itemsOf s ns = .ok items → Item.areReadable items →
      List.Forall₂ ReadsAs (writeItems s depth verbatim items) (nodeTrees s verbatim ns)
  | [], items, h, hitems => by
      obtain rfl := Except.ok.inj h
      exact .nil
  | n :: ns, items, h, hitems => by
      obtain ⟨item, hitem, h⟩ := bind_eq_ok.1 h
      obtain ⟨more, hmore, h⟩ := bind_eq_ok.1 h
      obtain rfl := Except.ok.inj h
      have hfirst := readsAs_node hs depth verbatim n hitem hitems.1
      exact .cons hfirst (readsAs_nodes hs depth verbatim ns hmore hitems.2)

theorem readsAs_branches (hs : BlankLayout s) (depth : Nat) (verbatim : Bool) :
    ∀ (branches : List Branch) {items : List Item}, branchItems s branches = .ok items →
      Item.areReadable items →
        List.Forall₂ ReadsAs (writeItems s depth verbatim items) (branchTrees s verbatim branches)
  | [], items, h, hitems => by
      obtain rfl := Except.ok.inj h
      exact .nil
  | ⟨test, children, _⟩ :: branches, items, h, hitems => by
      obtain ⟨inner, hinner, h⟩ := bind_eq_ok.1 h
      obtain ⟨more, hmore, h⟩ := bind_eq_ok.1 h
      obtain rfl := Except.ok.inj h
      have hfirst := readsAs_command hs (by decide +kernel) (bind_eq_ok.2 ⟨inner, hinner, rfl⟩) hitems.1
        (map_testAttributes test) fun _ => readsAs_nodes hs (depth + 1) verbatim children
      exact .cons hfirst (readsAs_branches hs depth verbatim branches hmore hitems.2)

end

/-! Views. -/

/-- What the nodes are on the client is readable. -/
def AreReadable (s : Settings) (ns : List Node) : Prop :=
  ∀ items, itemsOf s ns = .ok items → Item.areReadable items

theorem lexes_fragment (hs : BlankLayout s) {roots : List Node} {written : String}
    (hroots : AreReadable s roots)
    (h : itemsOf s roots >>= (fun items => .ok (writeItem s 0 false (.element "" [] items))) =
      .ok written) :
    ∃ ls, Lexes Anywhere written ls ∧
      ListEntry (some (listing "" [] (shownItems s false (nodeTrees s false roots)))) ls := by
  obtain ⟨items, hitems, h⟩ := bind_eq_ok.1 h
  obtain rfl := Except.ok.inj h
  have hempty : IsBasicText "" := by decide
  have hshown : shownText s false "" = "" := shownText_of_unblanked nofun
  have hroot : (Item.element "" [] items).IsReadable := ⟨hempty, nofun, hroots items hitems⟩
  have hverbatim : false = (false || isVerbatimTag "") := by decide +kernel
  have helement := lexes_element hs hverbatim hroot
    (readsAs_nodes hs 1 false roots hitems (hroots items hitems))
  rwa [hshown] at helement

/-- The text between the parentheses is read as the root, or as an untagged array of several. -/
theorem lexes_writeRoots (hs : BlankLayout s) : ∀ (roots : List Node) {written : String},
    AreReadable s roots → writeRoots s roots = .ok written →
      ∃ ls, Lexes Anywhere written ls ∧ ListEntry (rootTree s roots) ls
  | [root], _, hroots, h => by
      obtain ⟨item, hitem, h⟩ := bind_eq_ok.1 h
      obtain rfl := Except.ok.inj h
      have hitems : itemsOf s [root] = .ok [item] := by
        rw [itemsOf, hitem]
        rfl
      obtain ⟨ls, hlexes, hentry⟩ := (readsAs_node hs 1 false root hitem (hroots [item] hitems).1).lexes
      have hgap : Lexes Anywhere (if item.hasContent then line s 1 else "") [] := by
        split
        · exact lexes_line hs 1
        · exact .nil
      exact ⟨ls, hgap.before hlexes, hentry⟩
  | [], _, hroots, h => lexes_fragment hs hroots h
  | _ :: _ :: _, _, hroots, h => lexes_fragment hs hroots h

def clientViews (views : List View) : List View := views.filter (!·.serverOnly)

/-- The name that a view is bound to, and the argument of its call. -/
def bindingOf (s : Settings) (v : View) : String × List Expr :=
  (s.clientName v.name, (rootTree s v.children).toList)

theorem sentences_writeView (hs : BlankLayout s) {v : View} {written : String} (hname : isDottedName name)
    (hroots : AreReadable s v.children) (h : writeView s name v = .ok written) :
    ∃ st, Sentences written [st] ∧ binding? "duel" st = some (name, (rootTree s v.children).toList) := by
  obtain ⟨roots, hwritten, h⟩ := bind_eq_ok.1 h
  obtain rfl := Except.ok.inj h
  obtain ⟨ls, hlexes, hentry⟩ := lexes_writeRoots hs v.children hroots hwritten
  exact sentences_call hs hname hlexes hentry

/-- Each view of the client contributes one binding of its name to a call with its root. -/
theorem sentences_writeViews (hs : BlankLayout s) {views : List View} {seen : List String} {text : String}
    (hviews : ∀ v ∈ clientViews views, AreReadable s v.children) (h : writeViews s seen views = .ok text) :
    ∃ sts, Sentences text sts ∧
      sts.filterMap (binding? "duel") = (clientViews views).map (bindingOf s) := by
  induction views generalizing seen text with
  | nil =>
      obtain rfl := Except.ok.inj h
      exact ⟨[], .blank .nil, rfl⟩
  | cons v views ih =>
      rw [writeViews] at h
      split at h
      · next hserver =>
          have hclient : clientViews (v :: views) = clientViews views := by simp [clientViews, hserver]
          rw [hclient] at hviews ⊢
          exact ih hviews h
      · next hserver =>
          have hclient : clientViews (v :: views) = v :: clientViews views := by simp [clientViews, hserver]
          rw [hclient] at hviews ⊢
          obtain ⟨hroots, hmore⟩ := List.forall_mem_cons.1 hviews
          dsimp only at h
          split at h
          · cases h
          · next grew declared hdeclared =>
              obtain ⟨written, hwritten, h⟩ := bind_eq_ok.1 h
              obtain ⟨rest, hrest, h⟩ := bind_eq_ok.1 h
              obtain rfl := Except.ok.inj h
              obtain ⟨hname, sts, hdeclarations, hnone⟩ := sentences_declareNamespaces hs hdeclared
              obtain ⟨st, hview, hbinding⟩ := sentences_writeView hs hname hroots hwritten
              obtain ⟨sts', hsentences, hbindings⟩ := ih hmore hrest
              have hstart : Sentences (line s 0) [] := .blank (lexes_line hs 0)
              have hgap : Sentences (if grew then line s 0 else "") [] := by
                split
                · exact hstart
                · exact .blank .nil
              have htext := (((hstart.append hdeclarations).append hgap).append hview).append hsentences
              refine ⟨_, htext, ?_⟩
              simp [hnone, hbinding, hbindings, bindingOf]

theorem sentences_compile (hs : BlankLayout s) {views : List View} {text : String}
    (hviews : ∀ v ∈ clientViews views, AreReadable s v.children) (h : compile s views = .ok text) :
    ∃ sts, Sentences text sts ∧
      sts.filterMap (binding? "duel") = (clientViews views).map (bindingOf s) := by
  obtain ⟨rest, hrest, h⟩ := bind_eq_ok.1 h
  obtain rfl := Except.ok.inj h
  obtain ⟨sts, hsentences, hbindings⟩ := sentences_writeViews hs hviews hrest
  have hcomment : Lexes Anywhere "/*global duel */" [] :=
    lexed_comment (show ¬ _ <:+: "global duel ".toList ++ ['*'] by decide)
  exact ⟨sts, ((Sentences.blank hcomment).append (.blank (lexes_line hs 0))).append hsentences, hbindings⟩

/-- Client text is well formed: it is read as a program in which each view of the client is bound once,
to a call with its root. -/
theorem compile_readback (hs : BlankLayout s) {views : List View} {text : String}
    (hviews : ∀ v ∈ clientViews views, AreReadable s v.children) (h : compile s views = .ok text) :
    ∃ program, parse text = .ok program ∧
      (Stmt.allUnplaced program).filterMap (binding? "duel") = (clientViews views).map (bindingOf s) := by
  obtain ⟨sts, hsts, hbindings⟩ := sentences_compile hs hviews h
  obtain ⟨program, hparse, hprogram⟩ := hsts.exists_parse
  exact ⟨program, hparse, hprogram ▸ hbindings⟩

/-- A list with a comment of the code and with commands in it, a view that is only such a comment, and a
view of the server. -/
def commentedViews : List View := [
  { name := "lists.main"
    children := [
      .element {
        tag := "ul"
        attributes := [("id", some (.text .literal "x" none)), ("hidden", none)]
        children := [
          .text .codeComment "items" none,
          .element { tag := "li", children := [.code { kind := .expression, value := "data" }] },
          .text .literal "it's" none,
          .loop {
            each := some (.text .literal "data" none)
            data := some (.code { kind := .expression, value := "data" })
            children := [.choice { branches := [
              { test := some { kind := .expression, value := "data" }
                children := [.text .literal "yes" none] },
              { children := [.text .literal "no" none] }] }] },
          .call {
            view := some (.text .literal "item" none)
            data := some (.code { kind := .expression, value := "data" }) }] }] },
  { name := "lists.none", children := [.text .codeComment "later" none] },
  { name := "lists.page", serverOnly := true }]

def isOneFunction : List Stmt → Bool
  | [.function _ _] => true
  | _ => false

theorem isClosedFunction_of {i : Nat} (hfunction : (parse source).toOption.any isOneFunction)
    (hlast : (tokenize source).toOption.any
      (·.getLast? = some ⟨i, byteLength source.toList, .mark '\x7d'⟩)) : IsClosedFunction source := by
  obtain ⟨program, hp, hone⟩ := exists_ok_of_any hfunction
  obtain ⟨ts, hts, hlast⟩ := exists_ok_of_any hlast
  obtain ⟨before, rfl⟩ := List.getLast?_eq_some_iff.1 (of_decide_eq_true hlast)
  refine ⟨?_, before, i, hts⟩
  unfold isOneFunction at hone
  split at hone
  · exact ⟨_, _, hp⟩
  · cases hone

theorem compile_readback_commentedViews :
    ∃ text program data item, compile {} commentedViews = .ok text ∧ parse text = .ok program ∧
      data = codeTree "function(data) \x7b return (data); \x7d" ∧
      item = codeTree "function() \x7b return (item); \x7d" ∧
      (Stmt.allUnplaced program).filterMap (binding? "duel") = [
        ("lists.main", [.array 0 [
          .text 0 "ul",
          .object 0 [(.text 0 "id", .text 0 "x"), (.text 0 "hidden", .bool 0 true)],
          .array 0 [.text 0 "li", data],
          .text 0 "it's",
          .array 0 [.text 0 "$for", .object 0 [(.text 0 "each", data), (.text 0 "data", data)],
            .array 0 [.text 0 "$xor",
              .array 0 [.text 0 "$if", .object 0 [(.text 0 "test", data)], .text 0 "yes"],
              .array 0 [.text 0 "$if", .text 0 "no"]]],
          .array 0 [.text 0 "$call", .object 0 [(.text 0 "view", item), (.text 0 "data", data)]]]]),
        ("lists.none", [])] := by
  have hs : BlankLayout {} := ⟨by decide, by decide⟩
  have hid : attributeValue {} "id" (some (.text .literal "x" none)) = .text "x" := by
    rw [attributeValue, if_neg (by decide +kernel), plainText_text]
    · nofun
    · nofun
  have hhidden : attributeValue {} "hidden" none = .on := by
    rw [attributeValue, if_pos (by decide +kernel)]
  have hdata : blockCode {} { kind := .expression, value := "data" } =
      "function(data) \x7b return (data); \x7d" := by decide
  have hitem : blockCode {} { kind := .expression, value := Settings.clientName {} "item" } =
      "function() \x7b return (item); \x7d" := by decide +kernel
  have hreadable : ∀ v ∈ clientViews commentedViews, AreReadable {} v.children := by
    intro v hv items hitems
    have hviews : clientViews commentedViews = commentedViews.take 2 := rfl
    rw [hviews] at hv
    obtain rfl | rfl : v = _ ∨ v = _ := by simpa [commentedViews] using hv
    · have hclosed : IsClosedFunction "function(data) \x7b return (data); \x7d" :=
        isClosedFunction_of (i := 32) (by decide +kernel) (by decide +kernel)
      have hclosed' : IsClosedFunction "function() \x7b return (item); \x7d" :=
        isClosedFunction_of (i := 28) (by decide +kernel) (by decide +kernel)
      have htext : commandValue {} (.text .literal "data" none) =
          .code "function(data) \x7b return (data); \x7d" := by rw [commandValue_text, hdata]
      have hcode : commandValue {} (.code { kind := .expression, value := "data" }) =
          .code "function(data) \x7b return (data); \x7d" := by rw [commandValue, hdata]
      have hview : viewValue {} (.text .literal "item" none) =
          .code "function() \x7b return (item); \x7d" := by rw [viewValue_text, hitem]
      simp only [itemsOf, itemOf, branchItems, commandAttributes, testAttributes, pure_bind, List.map,
        List.filterMap, Option.map, Option.toList, List.cons_append, List.nil_append, hid, hhidden, htext,
        hcode, hview, hdata] at hitems
      obtain rfl := Except.ok.inj hitems
      simp [Item.areReadable, Item.IsReadable, Value.IsReadable, hclosed, hclosed', IsBasicText]
      decide
    · obtain rfl := Except.ok.inj hitems
      exact ⟨trivial, trivial⟩
  have hok : (compile {} commentedViews).isOk := by decide +kernel
  obtain ⟨text, h⟩ := exists_ok hok
  obtain ⟨program, hparse, hprogram⟩ := compile_readback hs hreadable h
  have hdata : blockTree {} { kind := .expression, value := "data" } =
      codeTree "function(data) \x7b return (data); \x7d" := by rw [blockTree_eq, hdata]
  have hview : viewTree {} (.text .literal "item" none) =
      codeTree "function() \x7b return (item); \x7d" := by rw [viewTree_text, hitem]
  refine ⟨text, program, _, _, h, hparse, hdata, hview, ?_⟩
  have hmain : Settings.clientName {} "lists.main" = "lists.main" := by decide
  have hnone : Settings.clientName {} "lists.none" = "lists.none" := by decide +kernel
  have hshown (verbatim : Bool) (value : String) : shownText {} verbatim value = value := by
    simp [shownText, convertText]
  have hkept (verbatim : Bool) (entries : List (Bool × Option Expr)) :
      shownItems {} verbatim entries = entries.filterMap (·.2) := rfl
  have hid (verbatim : Bool) :
      attributeTree {} verbatim "id" (some (.text .literal "x" none)) = .text 0 "x" := by
    rw [← valueTree_attributeValue, hid, valueTree, hshown]
  have hhidden (verbatim : Bool) : attributeTree {} verbatim "hidden" none = .bool 0 true := by
    rw [← valueTree_attributeValue, hhidden, valueTree]
  have hviews : clientViews commentedViews = commentedViews.take 2 := rfl
  rw [hprogram, hviews]
  simp only [commentedViews, List.take, List.map, bindingOf, hmain, hnone, rootTree, nodeTree, nodeTrees,
    branchTrees, hshown, hkept, given_none, given_code, given_text, List.flatMap_cons, List.flatMap_nil,
    Option.toList_some, Option.toList_none, hid, hhidden]
  generalize blockTree {} { kind := .expression, value := "data" } = data
  generalize viewTree {} (.text .literal "item" none) = item
  rfl

end TwinView.Client
