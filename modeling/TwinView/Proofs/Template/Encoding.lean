import TwinView.Proofs.Json.Reading
import TwinView.Settings
import TwinView.Template.Encoding

/-!
Templates and settings survive being written as JSON. The only trees that are not read back have an
element with two attributes of one name, and no JSON is read as such a tree.
-/

namespace TwinView

variable {n : Node} {ns : List Node} {o : Option Node} {v : View} {bound : Nat} {j : Json}

namespace Json

variable {α β : Type} {key : String} {members : List (String × Json)} {items : List Json}

/-! Fields of an object. -/

theorem depth_le_depthAll (h : j ∈ items) : j.depth ≤ depthAll items := by
  induction items with
  | nil => cases h
  | cons first items ih =>
      rw [depthAll]
      obtain rfl | h := List.mem_cons.1 h
      · exact Nat.le_max_left _ _
      · exact Nat.le_trans (ih h) (Nat.le_max_right _ _)

theorem depth_le_depthMembers (h : (key, j) ∈ members) : j.depth ≤ depthMembers members := by
  induction members with
  | nil => cases h
  | cons first members ih =>
      rw [depthMembers]
      obtain rfl | h := List.mem_cons.1 h
      · exact Nat.le_max_left _ _
      · exact Nat.le_trans (ih h) (Nat.le_max_right _ _)

theorem valuesOf_of_notMem (h : key ∉ members.map (·.1)) : valuesOf key members = [] := by
  rw [valuesOf, List.map_eq_nil_iff, List.filter_eq_nil_iff]
  intro m hm heq
  exact h (List.mem_map.2 ⟨m, hm, eq_of_beq heq⟩)

theorem fieldOnce_of_mem (hnames : (members.map (·.1)).Nodup) (h : (key, j) ∈ members) :
    fieldOnce members key = some (some j) := by
  have hvalues : valuesOf key members = [j] := by
    induction members with
    | nil => cases h
    | cons m members ih =>
        obtain ⟨hm, hnames⟩ := List.nodup_cons.1 hnames
        obtain rfl | h := List.mem_cons.1 h
        · have hrest := valuesOf_of_notMem hm
          simp only [valuesOf] at hrest ⊢
          simp [hrest]
        · have hne : m.1 ≠ key := by
            rintro rfl
            exact hm (List.mem_map.2 ⟨_, h, rfl⟩)
          have hrest := ih hnames h
          simp only [valuesOf] at hrest ⊢
          simpa [hne] using hrest
  rw [fieldOnce, hvalues]

theorem mapM_map {f : β → Option α} {g : α → β} {xs : List α} (h : ∀ x ∈ xs, f (g x) = some x) :
    (xs.map g).mapM f = some xs := by
  induction xs with
  | nil => rfl
  | cons x xs ih =>
      obtain ⟨hx, hxs⟩ := List.forall_mem_cons.1 h
      rw [List.map_cons, List.mapM_cons, hx, ih hxs]
      rfl

/-- An object whose members are all the fields is read as their values. -/
theorem fields_obj {names : List String} (hkeys : members.map (·.1) = names) (hnames : names.Nodup) :
    (Json.obj members).fields names = some (members.map fun m => some m.2) := by
  subst hkeys
  have hpart : ∀ part ⊆ members,
      (part.map (·.1)).mapM (fieldOnce members) = some (part.map fun m => some m.2) := by
    intro part hsub
    induction part with
    | nil => rfl
    | cons m part ih =>
        obtain ⟨hm, hrest⟩ := List.cons_subset.1 hsub
        rw [List.map_cons, List.mapM_cons, fieldOnce_of_mem hnames hm, ih hrest]
        rfl
  exact hpart members (List.Subset.refl _)

end Json

/-! What stands inside a node. -/

def Node.inside : Node → List Node
  | .text _ _ _ => []
  | .code _ => []
  | .element e => e.attributes.filterMap (·.2) ++ e.children
  | .view v => v.children
  | .choice c => c.branches.flatMap (·.children)
  | .branch b => b.children
  | .loop l => [l.each, l.within, l.count, l.data].filterMap id ++ l.children
  | .call c => [c.view, c.data, c.index, c.count, c.key].filterMap id ++ c.children
  | .part p => p.children

def Node.attributeNames : Node → List String
  | .element e => e.attributes.map (·.1)
  | _ => []

/-- Attributes of one element have different names, however deep the element lies. -/
inductive Node.Settled : Node → Prop
  | intro {n : Node} (names : n.attributeNames.Nodup) (inside : ∀ m ∈ n.inside, m.Settled) : n.Settled

/-! Writing and reading back. -/

/-- The value is read as `x` under every bound that its nesting allows. -/
def IsReadAs {α : Type} (read : Nat → Json → Option α) (j : Json) (x : α) : Prop :=
  ∀ bound, j.depth ≤ bound → read bound j = some x

theorem nodesJson_eq (ns : List Node) : nodesJson ns = ns.map Node.toJson := by
  induction ns with
  | nil => rfl
  | cons n ns ih => rw [nodesJson, ih, List.map_cons]

theorem branchesJson_eq (bs : List Branch) : branchesJson bs = bs.map branchJson := by
  induction bs with
  | nil => rfl
  | cons b bs ih => rw [branchesJson, ih, List.map_cons]

theorem attributesJson_eq (as : List (String × Option Node)) :
    attributesJson as = as.map fun a => (a.1, optionJson a.2) := by
  induction as with
  | nil => rfl
  | cons a as ih => rw [attributesJson, ih, List.map_cons]

theorem isReadAs_obj {α : Type} {read : Nat → Json → Option α} {members : List (String × Json)} {x : α}
    (h : ∀ bound, (∀ m ∈ members, m.2.depth ≤ bound) → read (bound + 1) (.obj members) = some x) :
    IsReadAs read (.obj members) x := by
  intro bound hbound
  rw [Json.depth] at hbound
  obtain ⟨bound, rfl⟩ := Nat.exists_eq_add_one_of_ne_zero (Nat.ne_zero_of_lt hbound)
  refine h bound fun m hm => ?_
  exact Nat.le_trans (Json.depth_le_depthMembers hm) (Nat.le_of_succ_le_succ hbound)

theorem nullable_of_ne_null {α : Type} {read : Json → Option α} {x : α} (h : read j = some x)
    (hj : j ≠ .null) : Json.nullable read j = some (some x) := by
  cases j with
  | null => exact absurd rfl hj
  | _ => simp [Json.nullable, h]

theorem isReadAs_position (p : Position) : IsReadAs Position.ofJson? p.toJson p := by
  refine isReadAs_obj fun bound _ => ?_
  rw [Position.ofJson?, Json.entering, Json.fields_obj]
  · simp [Json.asIndex]
  · rfl
  · decide

theorem positionField_positionJson {p : Option Position} (h : (positionJson p).depth ≤ bound) :
    positionField bound (some (positionJson p)) = some p := by
  cases p with
  | none => rfl
  | some p => exact nullable_of_ne_null (isReadAs_position p bound h) nofun

theorem BlockKind.ofTag?_tag (k : BlockKind) : BlockKind.ofTag? k.tag = some k := by cases k <;> rfl

theorem TextKind.ofTag?_tag (k : TextKind) : TextKind.ofTag? k.tag = some k := by cases k <;> rfl

theorem isReadAs_block (b : CodeBlock) : IsReadAs CodeBlock.ofJson? b.toJson b := by
  refine isReadAs_obj fun bound hdepth => ?_
  have hposition := positionField_positionJson (hdepth ("position", positionJson b.position) (by simp))
  rw [CodeBlock.ofJson?, Json.entering, Json.fields_obj]
  · simp [hposition, BlockKind.ofJson?, BlockKind.ofTag?_tag, Json.asString]
  · rfl
  · decide

theorem optional_blockJson {b : Option CodeBlock} (h : (blockJson b).depth ≤ bound) :
    Json.optional (CodeBlock.ofJson? bound) (some (blockJson b)) = some b := by
  cases b with
  | none => rfl
  | some b => exact nullable_of_ne_null (isReadAs_block b bound h) nofun

theorem isReadAs_text (kind : TextKind) (value : String) (position : Option Position) :
    IsReadAs (nodeOfText? kind) (textJson value position) (.text kind value position) := by
  refine isReadAs_obj fun bound hdepth => ?_
  have hposition := positionField_positionJson (hdepth ("position", positionJson position) (by simp))
  rw [nodeOfText?, Json.entering, Json.fields_obj]
  · simp [hposition, Json.asString]
  · rfl
  · decide

/-! Bodies, from what is read of the nodes inside. -/

section Bodies

abbrev ReadBack (ns : List Node) : Prop := ∀ n ∈ ns, IsReadAs Node.ofJson? n.toJson n

theorem toJson_ne_null (n : Node) : n.toJson ≠ .null := by cases n <;> simp [Node.toJson, Node.toJson.command]

theorem nullable_optionJson (ho : ∀ n ∈ o, IsReadAs Node.ofJson? n.toJson n)
    (h : (optionJson o).depth ≤ bound) :
    Json.nullable (Node.ofJson? bound) (optionJson o) = some o := by
  cases o with
  | none => rfl
  | some n => exact nullable_of_ne_null (ho n rfl bound h) (toJson_ne_null n)

theorem isReadAs_nodes (hns : ReadBack ns) : IsReadAs nodesOfJson? (.arr (nodesJson ns)) ns := by
  intro bound hbound
  rw [Json.depth, nodesJson_eq] at hbound
  obtain ⟨bound, rfl⟩ := Nat.exists_eq_add_one_of_ne_zero (Nat.ne_zero_of_lt hbound)
  rw [nodesOfJson?, nodesJson_eq]
  refine Json.mapM_map fun n hn => hns n hn bound ?_
  exact Nat.le_trans (Json.depth_le_depthAll (List.mem_map_of_mem hn)) (Nat.le_of_succ_le_succ hbound)

theorem isReadAs_view (h : ReadBack v.children) : IsReadAs viewOfJson? (viewJson v) v := by
  obtain ⟨name, clientOnly, serverOnly, children, position⟩ := v
  rw [viewJson]
  refine isReadAs_obj fun bound hdepth => ?_
  have hchildren := isReadAs_nodes h bound (hdepth ("children", _) (by simp))
  have hposition := positionField_positionJson (hdepth ("position", positionJson position) (by simp))
  rw [viewOfJson?, Json.fields_obj]
  · simp [hchildren, hposition, Json.withDefault, Json.asString, Json.asBool]
  · rfl
  · decide

theorem optional_optionJson (ho : ∀ n ∈ o, IsReadAs Node.ofJson? n.toJson n)
    (h : (optionJson o).depth ≤ bound) :
    Json.optional (Node.ofJson? bound) (some (optionJson o)) = some o :=
  nullable_optionJson ho h

theorem isReadAs_part {p : Part} (h : ReadBack p.children) : IsReadAs partOfJson? (partJson p) p := by
  obtain ⟨name, children, position⟩ := p
  rw [partJson]
  refine isReadAs_obj fun bound hdepth => ?_
  have hchildren := isReadAs_nodes h bound (hdepth ("children", _) (by simp))
  have hposition := positionField_positionJson (hdepth ("position", positionJson position) (by simp))
  rw [partOfJson?, Json.fields_obj]
  · simp [hchildren, hposition, Json.withDefault, Json.asString]
  · rfl
  · decide

theorem isReadAs_branch {b : Branch} (h : ReadBack b.children) : IsReadAs branchOfJson? (branchJson b) b := by
  obtain ⟨test, children, position⟩ := b
  rw [branchJson]
  refine isReadAs_obj fun bound hdepth => ?_
  have htest := optional_blockJson (hdepth ("test", blockJson test) (by simp))
  have hchildren := isReadAs_nodes h bound (hdepth ("children", _) (by simp))
  have hposition := positionField_positionJson (hdepth ("position", positionJson position) (by simp))
  rw [branchOfJson?, Json.fields_obj]
  · simp [htest, hchildren, hposition, Json.withDefault]
  · rfl
  · decide

theorem isReadAs_branches {bs : List Branch} (h : ∀ b ∈ bs, ReadBack b.children) :
    IsReadAs branchesOfJson? (.arr (branchesJson bs)) bs := by
  intro bound hbound
  rw [Json.depth, branchesJson_eq] at hbound
  obtain ⟨bound, rfl⟩ := Nat.exists_eq_add_one_of_ne_zero (Nat.ne_zero_of_lt hbound)
  rw [branchesOfJson?, branchesJson_eq]
  refine Json.mapM_map fun b hb => isReadAs_branch (h b hb) bound ?_
  exact Nat.le_trans (Json.depth_le_depthAll (List.mem_map_of_mem hb)) (Nat.le_of_succ_le_succ hbound)

theorem isReadAs_choice {c : Choice} (h : ∀ b ∈ c.branches, ReadBack b.children) :
    IsReadAs choiceOfJson?
      (.obj [("branches", .arr (branchesJson c.branches)), ("position", positionJson c.position)]) c := by
  obtain ⟨branches, position⟩ := c
  refine isReadAs_obj fun bound hdepth => ?_
  have hbranches := isReadAs_branches h bound (hdepth ("branches", _) (by simp))
  have hposition := positionField_positionJson (hdepth ("position", positionJson position) (by simp))
  rw [choiceOfJson?, Json.fields_obj]
  · simp [hbranches, hposition, Json.withDefault]
  · rfl
  · decide

variable {view each within data index count key : Option Node} {defer : Bool} {position : Option Position}

theorem isReadAs_loop
    (hgiven : ∀ o ∈ [each, within, count, data], ∀ n ∈ o, IsReadAs Node.ofJson? n.toJson n)
    (h : ReadBack ns) :
    IsReadAs loopOfJson? (.obj [
      ("each", optionJson each), ("in", optionJson within), ("count", optionJson count),
      ("data", optionJson data), ("children", .arr (nodesJson ns)), ("position", positionJson position)])
      ⟨each, within, count, data, ns, position⟩ := by
  refine isReadAs_obj fun bound hdepth => ?_
  have heach := optional_optionJson (hgiven each (by simp)) (hdepth ("each", optionJson each) (by simp))
  have hwithin := optional_optionJson (hgiven within (by simp)) (hdepth ("in", optionJson within) (by simp))
  have hcount := optional_optionJson (hgiven count (by simp)) (hdepth ("count", optionJson count) (by simp))
  have hdata := optional_optionJson (hgiven data (by simp)) (hdepth ("data", optionJson data) (by simp))
  have hchildren := isReadAs_nodes h bound (hdepth ("children", _) (by simp))
  have hposition := positionField_positionJson (hdepth ("position", positionJson position) (by simp))
  rw [loopOfJson?, Json.fields_obj]
  · simp [heach, hwithin, hcount, hdata, hchildren, hposition, Json.withDefault]
  · rfl
  · decide

theorem isReadAs_call
    (hgiven : ∀ o ∈ [view, data, index, count, key], ∀ n ∈ o, IsReadAs Node.ofJson? n.toJson n)
    (h : ReadBack ns) :
    IsReadAs callOfJson? (callJson ⟨view, data, index, count, key, defer, ns, position⟩)
      ⟨view, data, index, count, key, defer, ns, position⟩ := by
  rw [callJson]
  refine isReadAs_obj fun bound hdepth => ?_
  have hview := optional_optionJson (hgiven view (by simp)) (hdepth ("view", optionJson view) (by simp))
  have hdata := optional_optionJson (hgiven data (by simp)) (hdepth ("data", optionJson data) (by simp))
  have hindex := optional_optionJson (hgiven index (by simp)) (hdepth ("index", optionJson index) (by simp))
  have hcount := optional_optionJson (hgiven count (by simp)) (hdepth ("count", optionJson count) (by simp))
  have hkey := optional_optionJson (hgiven key (by simp)) (hdepth ("key", optionJson key) (by simp))
  have hchildren := isReadAs_nodes h bound (hdepth ("children", _) (by simp))
  have hposition := positionField_positionJson (hdepth ("position", positionJson position) (by simp))
  rw [callOfJson?, Json.fields_obj]
  · simp [hview, hdata, hindex, hcount, hkey, hchildren, hposition, Json.withDefault, Json.asBool]
  · rfl
  · decide

theorem isReadAs_attributes {as : List (String × Option Node)} (hnames : (as.map (·.1)).Nodup)
    (h : ∀ a ∈ as, ∀ n ∈ a.2, IsReadAs Node.ofJson? n.toJson n) :
    IsReadAs attributesOfJson? (.obj (attributesJson as)) as := by
  refine isReadAs_obj fun bound hdepth => ?_
  rw [attributesJson_eq] at hdepth ⊢
  rw [attributesOfJson?, Json.mapM_map]
  · exact congrArg some (Json.foldl_put hnames)
  · intro a ha
    have hvalue := nullable_optionJson (h a ha) (hdepth _ (List.mem_map_of_mem ha))
    simp [hvalue]

theorem isReadAs_element {e : Element} (hnames : (e.attributes.map (·.1)).Nodup)
    (hattributes : ∀ a ∈ e.attributes, ∀ n ∈ a.2, IsReadAs Node.ofJson? n.toJson n)
    (h : ReadBack e.children) : IsReadAs elementOfJson? (elementJson e) e := by
  obtain ⟨tag, attributes, children, position⟩ := e
  rw [elementJson]
  refine isReadAs_obj fun bound hdepth => ?_
  have hvalues := isReadAs_attributes hnames hattributes bound (hdepth ("attributes", _) (by simp))
  have hchildren := isReadAs_nodes h bound (hdepth ("children", _) (by simp))
  have hposition := positionField_positionJson (hdepth ("position", positionJson position) (by simp))
  rw [elementOfJson?, Json.fields_obj]
  · simp [hvalues, hchildren, hposition, Json.withDefault, Json.asString]
  · rfl
  · decide

end Bodies

/-! Nodes. -/

/-- A node is written as an object with its kind as the key, and a command once more with its own. -/
theorem isReadAs_tagged {α β : Type} {outer : Nat → Json → Option β} {read : Nat → Json → Option α}
    (build : α → β) {tag : String} {body : Json} {x : α} (h : IsReadAs read body x)
    (hread : ∀ bound, outer (bound + 1) (.obj [(tag, body)]) = (read bound body).map build) :
    IsReadAs outer (.obj [(tag, body)]) (build x) := by
  refine isReadAs_obj fun bound hdepth => ?_
  rw [hread, h bound (hdepth _ (List.mem_singleton_self _))]
  rfl

theorem isReadAs_command {α : Type} {read : Nat → Json → Option α} (build : α → Node) {tag : String}
    {body : Json} {x : α} (h : IsReadAs read body x)
    (hread : ∀ bound, commandOfJson? (bound + 1) (.obj [(tag, body)]) = (read bound body).map build) :
    IsReadAs Node.ofJson? (Node.toJson.command tag body) (build x) :=
  isReadAs_tagged id (isReadAs_tagged build h hread) fun bound => by rw [Option.map_id]; rfl

/-- A tree whose attributes have names of their own is read back, node by node. -/
theorem isReadAs_node (h : n.Settled) : IsReadAs Node.ofJson? n.toJson n := by
  induction h with
  | intro names inside ih =>
      next n =>
      cases n with
      | text kind value position =>
          rw [Node.toJson]
          refine isReadAs_tagged id (isReadAs_text kind value position) fun bound => ?_
          simp [Node.ofJson?, Json.tagged, TextKind.ofTag?_tag]
      | code b =>
          rw [Node.toJson]
          exact isReadAs_tagged Node.code (isReadAs_block b) fun bound => rfl
      | element e =>
          rw [Node.toJson]
          refine isReadAs_tagged Node.element (isReadAs_element names (fun a ha n hn => ?_) fun n hn => ?_) fun bound => rfl
          · exact ih n (List.mem_append_left _ (List.mem_filterMap.2 ⟨a, ha, hn⟩))
          · exact ih n (List.mem_append_right _ hn)
      | view v =>
          rw [Node.toJson]
          exact isReadAs_command .view (isReadAs_view ih) fun bound => rfl
      | choice c =>
          rw [Node.toJson]
          refine isReadAs_command .choice (isReadAs_choice fun b hb n hn => ?_) fun bound => rfl
          exact ih n (List.mem_flatMap.2 ⟨b, hb, hn⟩)
      | branch b =>
          rw [Node.toJson]
          exact isReadAs_command .branch (isReadAs_branch ih) fun bound => rfl
      | loop l =>
          rw [Node.toJson]
          refine isReadAs_command .loop (isReadAs_loop (fun o ho n hn => ?_) fun n hn => ?_) fun bound => rfl
          · exact ih n (List.mem_append_left _ (List.mem_filterMap.2 ⟨o, ho, hn⟩))
          · exact ih n (List.mem_append_right _ hn)
      | call c =>
          rw [Node.toJson]
          refine isReadAs_command .call (isReadAs_call (fun o ho n hn => ?_) fun n hn => ?_) fun bound => rfl
          · exact ih n (List.mem_append_left _ (List.mem_filterMap.2 ⟨o, ho, hn⟩))
          · exact ih n (List.mem_append_right _ hn)
      | part p =>
          rw [Node.toJson]
          exact isReadAs_command .part (isReadAs_part ih) fun bound => rfl

/-! What is read is a tree that is read back. -/

namespace Json

variable {α β : Type} {key : String} {value : α} {members : List (String × α)}

theorem map_fst_put : (put key value members).map (·.1) =
    if key ∈ members.map (·.1) then members.map (·.1) else members.map (·.1) ++ [key] := by
  induction members with
  | nil => rfl
  | cons m members ih =>
      rw [put]
      by_cases hkey : m.1 = key
      · simp [hkey]
      · rw [if_neg hkey, List.map_cons, ih]
        by_cases hmore : key ∈ members.map (·.1)
        · simp [hmore]
        · simp [hmore, Ne.symm hkey]

theorem mem_put {m : String × α} (h : m ∈ put key value members) : m = (key, value) ∨ m ∈ members := by
  induction members with
  | nil => exact .inl (List.mem_singleton.1 h)
  | cons first members ih =>
      rw [put] at h
      split at h
      · next hkey =>
          obtain rfl | h := List.mem_cons.1 h
          · exact .inl (by rw [hkey])
          · exact .inr (List.mem_cons_of_mem _ h)
      · obtain rfl | h := List.mem_cons.1 h
        · exact .inr List.mem_cons_self
        · exact (ih h).imp_right (List.mem_cons_of_mem _)

/-- Members put one after the other have different keys, and are among those that were put. -/
theorem settled_foldl_put (read : List (String × α)) :
    ((read.foldl (fun ms (k, v) => put k v ms) []).map (·.1)).Nodup ∧
      read.foldl (fun ms (k, v) => put k v ms) [] ⊆ read := by
  induction read using List.reverseRecOn with
  | nil => exact ⟨.nil, List.Subset.refl _⟩
  | append_singleton read m ih =>
      rw [List.foldl_append, List.foldl_cons, List.foldl_nil]
      constructor
      · rw [map_fst_put]
        split
        · exact ih.1
        · next hkey =>
            refine List.nodup_append.2 ⟨ih.1, List.pairwise_singleton _ _, fun a ha b hb hab => hkey ?_⟩
            rwa [hab, List.mem_singleton.1 hb] at ha
      · intro x hx
        obtain rfl | hx := mem_put hx
        · exact List.mem_append_right _ (List.mem_singleton_self _)
        · exact List.mem_append_left _ (ih.2 hx)

theorem exists_of_mem_mapM {f : α → Option β} {xs : List α} {ys : List β} {y : β}
    (h : xs.mapM f = some ys) (hy : y ∈ ys) : ∃ x ∈ xs, f x = some y := by
  induction xs generalizing ys with
  | nil =>
      cases h
      cases hy
  | cons x xs ih =>
      simp only [List.mapM_cons, Option.bind_eq_bind, Option.bind_eq_some_iff] at h
      obtain ⟨z, hz, zs, hzs, h⟩ := h
      cases h
      obtain rfl | hy := List.mem_cons.1 hy
      · exact ⟨x, List.mem_cons_self, hz⟩
      · obtain ⟨x', hx', hfx'⟩ := ih hzs hy
        exact ⟨x', List.mem_cons_of_mem _ hx', hfx'⟩

end Json

section Reading

abbrev SettledBelow (bound : Nat) : Prop := ∀ b < bound, ∀ j n, Node.ofJson? b j = some n → n.Settled

variable {field : Option Json}

theorem settled_nodes (hlow : SettledBelow bound) (h : nodesOfJson? bound j = some ns) :
    ∀ n ∈ ns, n.Settled := by
  unfold nodesOfJson? at h
  split at h
  · intro n hn
    obtain ⟨j, -, hj⟩ := Json.exists_of_mem_mapM h hn
    exact hlow _ (Nat.lt_succ_self _) j n hj
  · cases h

theorem settled_children (hlow : SettledBelow bound)
    (h : Json.withDefault [] (nodesOfJson? bound) field = some ns) : ∀ n ∈ ns, n.Settled := by
  cases field with
  | none =>
      cases h
      nofun
  | some j => exact settled_nodes hlow h

theorem settled_nullable (hread : ∀ j n, Node.ofJson? bound j = some n → n.Settled)
    (h : Json.nullable (Node.ofJson? bound) j = some o) : ∀ n ∈ o, n.Settled := by
  unfold Json.nullable at h
  split at h
  · cases h
    nofun
  · obtain ⟨n, hn, rfl⟩ := Option.map_eq_some_iff.1 h
    rintro m ⟨⟩
    exact hread _ _ hn

theorem settled_optional (hread : ∀ j n, Node.ofJson? bound j = some n → n.Settled)
    (h : Json.optional (Node.ofJson? bound) field = some o) : ∀ n ∈ o, n.Settled := by
  cases field with
  | none =>
      cases h
      nofun
  | some j => exact settled_nullable hread h

theorem SettledBelow.succ (h : SettledBelow (bound + 1)) : SettledBelow bound :=
  fun b hb => h b (Nat.lt_succ_of_lt hb)

theorem settled_view (hlow : SettledBelow bound) (h : viewOfJson? bound j = some v) :
    ∀ n ∈ v.children, n.Settled := by
  cases bound with
  | zero => cases h
  | succ bound =>
      simp only [viewOfJson?, Option.bind_eq_bind, Option.bind_eq_some_iff] at h
      obtain ⟨fields, -, h⟩ := h
      split at h
      · simp only [Option.bind_eq_some_iff] at h
        obtain ⟨name, -, clientOnly, -, serverOnly, -, children, hchildren, position, -, ⟨⟩⟩ := h
        exact settled_children hlow.succ hchildren
      · cases h

theorem settled_part {p : Part} (hlow : SettledBelow bound) (h : partOfJson? bound j = some p) :
    ∀ n ∈ p.children, n.Settled := by
  cases bound with
  | zero => cases h
  | succ bound =>
      simp only [partOfJson?, Option.bind_eq_bind, Option.bind_eq_some_iff] at h
      obtain ⟨fields, -, h⟩ := h
      split at h
      · simp only [Option.bind_eq_some_iff] at h
        obtain ⟨name, -, children, hchildren, position, -, ⟨⟩⟩ := h
        exact settled_children hlow.succ hchildren
      · cases h

theorem settled_branch {b : Branch} (hlow : SettledBelow bound) (h : branchOfJson? bound j = some b) :
    ∀ n ∈ b.children, n.Settled := by
  cases bound with
  | zero => cases h
  | succ bound =>
      simp only [branchOfJson?, Option.bind_eq_bind, Option.bind_eq_some_iff] at h
      obtain ⟨fields, -, h⟩ := h
      split at h
      · simp only [Option.bind_eq_some_iff] at h
        obtain ⟨test, -, children, hchildren, position, -, ⟨⟩⟩ := h
        exact settled_children hlow.succ hchildren
      · cases h

theorem settled_branches {bs : List Branch} (hlow : SettledBelow bound)
    (h : branchesOfJson? bound j = some bs) : ∀ b ∈ bs, ∀ n ∈ b.children, n.Settled := by
  unfold branchesOfJson? at h
  split at h
  · intro b hb
    obtain ⟨j, -, hj⟩ := Json.exists_of_mem_mapM h hb
    exact settled_branch hlow.succ hj
  · cases h

theorem settled_choice {c : Choice} (hlow : SettledBelow bound) (h : choiceOfJson? bound j = some c) :
    ∀ b ∈ c.branches, ∀ n ∈ b.children, n.Settled := by
  cases bound with
  | zero => cases h
  | succ bound =>
      simp only [choiceOfJson?, Option.bind_eq_bind, Option.bind_eq_some_iff] at h
      obtain ⟨fields, -, h⟩ := h
      split at h
      · next branches _ =>
          simp only [Option.bind_eq_some_iff] at h
          obtain ⟨read, hbranches, position, -, ⟨⟩⟩ := h
          cases branches with
          | none =>
              cases hbranches
              nofun
          | some j => exact settled_branches hlow.succ hbranches
      · cases h

theorem settled_inside {given : List (Option Node)} (hgiven : ∀ o ∈ given, ∀ n ∈ o, n.Settled)
    {children : List Node} (hchildren : ∀ n ∈ children, n.Settled) :
    ∀ n ∈ given.filterMap id ++ children, n.Settled := by
  refine List.forall_mem_append.2 ⟨fun n hn => ?_, hchildren⟩
  obtain ⟨o, ho, hn⟩ := List.mem_filterMap.1 hn
  exact hgiven o ho n hn

theorem settled_loop {l : Loop} (hlow : SettledBelow bound) (h : loopOfJson? bound j = some l) :
    ∀ n ∈ (Node.loop l).inside, n.Settled := by
  cases bound with
  | zero => cases h
  | succ bound =>
      simp only [loopOfJson?, Option.bind_eq_bind, Option.bind_eq_some_iff] at h
      obtain ⟨fields, -, h⟩ := h
      split at h
      · simp only [Option.bind_eq_some_iff] at h
        obtain ⟨each, heach, within, hwithin, count, hcount, data, hdata, children, hchildren, position, -,
          ⟨⟩⟩ := h
        have hgiven {field : Option Json} {o : Option Node}
            (ho : Json.optional (Node.ofJson? bound) field = some o) : ∀ n ∈ o, n.Settled :=
          settled_optional (hlow bound (Nat.lt_succ_self _)) ho
        refine settled_inside ?_ (settled_children hlow.succ hchildren)
        simp only [List.forall_mem_cons, List.not_mem_nil, false_implies, implies_true, and_true]
        exact ⟨hgiven heach, hgiven hwithin, hgiven hcount, hgiven hdata⟩
      · cases h

theorem settled_call {c : Call} (hlow : SettledBelow bound) (h : callOfJson? bound j = some c) :
    ∀ n ∈ (Node.call c).inside, n.Settled := by
  cases bound with
  | zero => cases h
  | succ bound =>
      simp only [callOfJson?, Option.bind_eq_bind, Option.bind_eq_some_iff] at h
      obtain ⟨fields, -, h⟩ := h
      split at h
      · simp only [Option.bind_eq_some_iff] at h
        obtain ⟨view, hview, data, hdata, index, hindex, count, hcount, key, hkey, defer, -, children, hchildren,
          position, -, ⟨⟩⟩ := h
        have hgiven {field : Option Json} {o : Option Node}
            (ho : Json.optional (Node.ofJson? bound) field = some o) : ∀ n ∈ o, n.Settled :=
          settled_optional (hlow bound (Nat.lt_succ_self _)) ho
        refine settled_inside ?_ (settled_children hlow.succ hchildren)
        simp only [List.forall_mem_cons, List.not_mem_nil, false_implies, implies_true, and_true]
        exact ⟨hgiven hview, hgiven hdata, hgiven hindex, hgiven hcount, hgiven hkey⟩
      · cases h

theorem settled_attributes {as : List (String × Option Node)} (hlow : SettledBelow bound)
    (h : attributesOfJson? bound j = some as) :
    (as.map (·.1)).Nodup ∧ ∀ a ∈ as, ∀ n ∈ a.2, n.Settled := by
  unfold attributesOfJson? at h
  split at h
  · simp only [Option.bind_eq_bind, Option.bind_eq_some_iff] at h
    obtain ⟨read, hread, ⟨⟩⟩ := h
    obtain ⟨hnames, hsub⟩ := Json.settled_foldl_put read
    refine ⟨hnames, fun a ha => ?_⟩
    obtain ⟨m, -, hm⟩ := Json.exists_of_mem_mapM hread (hsub ha)
    obtain ⟨o, ho, rfl⟩ := Option.map_eq_some_iff.1 hm
    exact settled_nullable (hlow _ (Nat.lt_succ_self _)) ho
  · cases h

theorem settled_attributeField {as : List (String × Option Node)} (hlow : SettledBelow bound)
    (h : Json.withDefault [] (attributesOfJson? bound) field = some as) :
    (as.map (·.1)).Nodup ∧ ∀ a ∈ as, ∀ n ∈ a.2, n.Settled := by
  cases field with
  | none =>
      cases h
      exact ⟨.nil, nofun⟩
  | some j => exact settled_attributes hlow h

theorem settled_element {e : Element} (hlow : SettledBelow bound) (h : elementOfJson? bound j = some e) :
    (Node.element e).Settled := by
  cases bound with
  | zero => cases h
  | succ bound =>
      simp only [elementOfJson?, Option.bind_eq_bind, Option.bind_eq_some_iff] at h
      obtain ⟨fields, -, h⟩ := h
      split at h
      · simp only [Option.bind_eq_some_iff] at h
        obtain ⟨tag, -, as, has, children, hchildren, position, -, ⟨⟩⟩ := h
        obtain ⟨hnames, hvalues⟩ := settled_attributeField hlow.succ has
        refine .intro hnames fun n hinside => ?_
        obtain hinside | hn := List.mem_append.1 hinside
        · obtain ⟨a, ha, hn⟩ := List.mem_filterMap.1 hinside
          exact hvalues a ha n hn
        · exact settled_children hlow.succ hchildren n hn
      · cases h

theorem settled_command (hlow : SettledBelow bound) (h : commandOfJson? bound j = some n) : n.Settled := by
  cases bound with
  | zero => cases h
  | succ bound =>
      simp only [commandOfJson?, Option.bind_eq_bind, Option.bind_eq_some_iff] at h
      obtain ⟨tagged, -, h⟩ := h
      split at h
      · obtain ⟨v, hv, rfl⟩ := Option.map_eq_some_iff.1 h
        exact .intro .nil (settled_view hlow.succ hv)
      · obtain ⟨c, hc, rfl⟩ := Option.map_eq_some_iff.1 h
        refine .intro .nil fun n hn => ?_
        obtain ⟨b, hb, hn⟩ := List.mem_flatMap.1 hn
        exact settled_choice hlow.succ hc b hb n hn
      · obtain ⟨b, hb, rfl⟩ := Option.map_eq_some_iff.1 h
        exact .intro .nil (settled_branch hlow.succ hb)
      · obtain ⟨l, hl, rfl⟩ := Option.map_eq_some_iff.1 h
        exact .intro .nil (settled_loop hlow.succ hl)
      · obtain ⟨c, hc, rfl⟩ := Option.map_eq_some_iff.1 h
        exact .intro .nil (settled_call hlow.succ hc)
      · obtain ⟨p, hp, rfl⟩ := Option.map_eq_some_iff.1 h
        exact .intro .nil (settled_part hlow.succ hp)
      · cases h

theorem settled_text {kind : TextKind} (h : nodeOfText? kind bound j = some n) : n.Settled := by
  cases bound with
  | zero => cases h
  | succ bound =>
      simp only [nodeOfText?, Json.entering, Option.bind_eq_bind, Option.bind_eq_some_iff] at h
      obtain ⟨fields, -, h⟩ := h
      split at h
      · simp only [Option.bind_eq_some_iff] at h
        obtain ⟨value, -, position, -, ⟨⟩⟩ := h
        exact .intro .nil nofun
      · cases h

end Reading

/-- Whatever is read as a node has different names on the attributes of each element. -/
theorem settled_of_read (h : Node.ofJson? bound j = some n) : n.Settled := by
  -- A node that lies in a list, or behind a tag, is read under a bound that is lower by more than one.
  induction bound using Nat.strongRecOn generalizing j n with
  | _ bound ih =>
      cases bound with
      | zero => cases h
      | succ bound =>
          have hlow : SettledBelow bound := fun b hb j n hn => ih b (Nat.lt_succ_of_lt hb) hn
          simp only [Node.ofJson?, Option.bind_eq_bind, Option.bind_eq_some_iff] at h
          obtain ⟨⟨tag, body⟩, -, h⟩ := h
          split at h
          · exact settled_text h
          · split at h
            · obtain ⟨b, -, rfl⟩ := Option.map_eq_some_iff.1 h
              exact .intro .nil nofun
            · obtain ⟨e, he, rfl⟩ := Option.map_eq_some_iff.1 h
              exact settled_element hlow he
            · exact settled_command hlow h
            · cases h

/-! Settings. -/

theorem Settings.ofJson?_toJson (s : Settings) : Settings.ofJson? s.toJson = some s := by
  have hroot (root : Option String) :
      Json.optional Json.asString (some (Json.ofString? root)) = some root := by cases root <;> rfl
  rw [Settings.ofJson?, Settings.toJson, Json.fields_obj]
  · simp [hroot, Json.withDefault, Json.asString, Json.asBool]
  · rfl
  · decide

/-- A view whose attributes have names of their own is read back from what is written of it, and so are
all settings. Whatever is read as a view is such a view. -/
theorem serialized_readBack :
    (∀ v : View, (Node.view v).Settled → ∀ bound, (viewJson v).depth ≤ bound →
      viewOfJson? bound (viewJson v) = some v) ∧
    (∀ s : Settings, Settings.ofJson? s.toJson = some s) ∧
    ∀ bound j v, viewOfJson? bound j = some v →
      ∀ bound', (viewJson v).depth ≤ bound' → viewOfJson? bound' (viewJson v) = some v := by
  have hview {v : View} (h : ∀ n ∈ v.children, n.Settled) : IsReadAs viewOfJson? (viewJson v) v :=
    isReadAs_view fun n hn => isReadAs_node (h n hn)
  refine ⟨fun v h => ?_, Settings.ofJson?_toJson, fun bound j v h => ?_⟩
  · obtain ⟨-, hinside⟩ := h
    exact hview hinside
  · exact hview (settled_view (fun b _ j n hn => settled_of_read hn) h)

/-- An element with a name, a flag without a value and code as a value, inside a branch of a choice. -/
def attributedView : View :=
  { name := "Form"
    children := [.choice { branches := [{
      test := some { kind := .expression, value := "data" }
      children := [.element {
        tag := "input"
        attributes := [("name", some (.text .literal "q" (some ⟨3, 1, 3⟩))), ("checked", none),
          ("value", some (.code { kind := .markup, value := "data.q" }))] }] }] }] }

theorem serialized_readBack_attributes : (Node.view attributedView).Settled ∧
    (viewJson attributedView).depth ≤ 16 ∧ viewOfJson? 16 (viewJson attributedView) = some attributedView := by
  have hsettled : (Node.view attributedView).Settled := by
    have hleaf {n : Node} (hnames : n.attributeNames = []) (hinside : n.inside = []) : n.Settled :=
      .intro (hnames ▸ .nil) (by simp [hinside])
    refine .intro .nil fun choice hchoice => ?_
    obtain rfl := List.mem_singleton.1 hchoice
    refine .intro .nil fun element helement => ?_
    obtain rfl := List.mem_singleton.1 helement
    refine .intro (by decide) fun value hvalue => ?_
    obtain rfl | rfl : value = .text .literal "q" (some ⟨3, 1, 3⟩) ∨
        value = .code { kind := .markup, value := "data.q" } := by
      simpa [Node.inside] using hvalue
    · exact hleaf rfl rfl
    · exact hleaf rfl rfl
  have hdepth : (viewJson attributedView).depth ≤ 16 := by decide
  exact ⟨hsettled, hdepth, serialized_readBack.1 _ hsettled _ hdepth⟩

end TwinView
