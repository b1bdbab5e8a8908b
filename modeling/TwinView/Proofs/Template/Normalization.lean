import TwinView.Proofs.Client.Normalization
import TwinView.Proofs.Server.Normalization

/-!
Normalization of templates without code, on both sides. The server builds what it would build of one template
without normalization, and the client writes what it would write of another. Both show the same texts exactly
if the values of attributes have no blanks to normalize outside `pre` and `script`, and all else is shown alike:
the client knows neither that `style` keeps its blanks nor that void elements have no children, and drops text
at the edges of several roots.
-/

namespace TwinView

open Client Server Code

variable {s : Settings} {verbatim kept : Bool} {n : Node} {e : Element}

/-- The text of an attribute's value, unless the attribute is a mere flag. -/
def valueText? (a : String × Option Node) : Option String :=
  if Vocabulary.isFlagAttribute a.1 then none else a.2.bind Node.literal?

def Client.Value.text? : Value → Option String
  | .text value => some value
  | _ => none

/-- The texts of a template that an output shows. -/
inductive Shown
  | text (value : String)
  | element (values : List (Option String)) (children : List Shown)
  | other

mutual

def Node.shown : Node → Shown
  | .text .literal value _ => .text value
  | .element ⟨_, attributes, children, _⟩ => .element (attributes.map valueText?) (Node.shownEach children)
  | _ => .other

def Node.shownEach : List Node → List Shown
  | [] => []
  | n :: rest => n.shown :: Node.shownEach rest

end

mutual

def Client.Item.shown : Item → Shown
  | .text value => .text value
  | .element _ attributes children => .element (attributes.map (·.2.text?)) (Item.shownEach children)
  | _ => .other

def Client.Item.shownEach : List Item → List Shown
  | [] => []
  | item :: rest => item.shown :: Item.shownEach rest

end

theorem Node.shownEach_eq (ns : List Node) : Node.shownEach ns = ns.map Node.shown := by
  induction ns with
  | nil => rfl
  | cons n rest ih => rw [Node.shownEach, ih, List.map_cons]

theorem Node.shown_element (e : Element) :
    (Node.element e).shown = .element (e.attributes.map valueText?) (e.children.map Node.shown) := by
  obtain ⟨tag, attributes, children, position⟩ := e
  rw [Node.shown, Node.shownEach_eq]

theorem Client.Item.shownEach_eq (items : List Item) : Item.shownEach items = items.map Item.shown := by
  induction items with
  | nil => rfl
  | cons item rest ih => rw [Item.shownEach, ih, List.map_cons]

theorem Client.Item.shown_element (tag : String) (attributes : List (String × Value)) (children : List Item) :
    (Item.element tag attributes children).shown =
      .element (attributes.map (·.2.text?)) (children.map Item.shown) := by
  rw [Item.shown, Item.shownEach_eq]

namespace Client

mutual

def literalItem (s : Settings) : Node → Item
  | .text .literal value _ => .text value
  | .element ⟨tag, attributes, children, _⟩ =>
    .element tag (attributes.map fun (name, value) => (name, attributeValue s name value))
      (literalItems s children)
  | _ => .note ""

def literalItems (s : Settings) : List Node → List Item
  | [] => []
  | n :: rest => literalItem s n :: literalItems s rest

end

theorem literalItems_eq (ns : List Node) : literalItems s ns = ns.map (literalItem s) := by
  induction ns with
  | nil => rfl
  | cons n rest ih => rw [literalItems, ih, List.map_cons]

theorem literalItem_element (e : Element) : literalItem s (.element e) = .element e.tag
    (e.attributes.map fun (name, value) => (name, attributeValue s name value))
    (e.children.map (literalItem s)) := by
  obtain ⟨tag, attributes, children, position⟩ := e
  rw [literalItem, literalItems_eq]

theorem itemsOf_literal {ns : List Node} (h : ∀ n ∈ ns, itemOf s n = .ok (literalItem s n)) :
    itemsOf s ns = .ok (ns.map (literalItem s)) := by
  induction ns with
  | nil => rfl
  | cons n rest ih =>
      obtain ⟨hn, hrest⟩ := List.forall_mem_cons.1 h
      rw [itemsOf, hn, ih hrest]
      rfl

theorem itemOf_literal (h : IsLiteral n) : itemOf s n = .ok (literalItem s n) := by
  induction h with
  | text value position => rfl
  | element hattributes hchildren ih =>
      next e =>
      rw [literalItem_element]
      obtain ⟨tag, attributes, children, position⟩ := e
      rw [itemOf, itemsOf_literal ih]
      rfl

theorem isEdgeText_literalItem (n : Node) : (literalItem s n).isEdgeText = Server.isEdgeText n := by
  cases n with
  | text kind value position => cases kind <;> rfl
  | element e =>
      rw [literalItem_element]
      rfl
  | _ => rfl

/-- The item of a view without code, with its blanks as the client shows them. -/
def normalizedRoot (s : Settings) (v : View) : Item :=
  (rootItem (v.children.map (literalItem s))).normalized false

end Client

/-- Both show the texts of a node alike, where the flags tell whether the client and the server keep the blanks
around it. -/
inductive Settled : Bool → Bool → Node → Prop
  | text {verbatim kept : Bool} {value : String} {position : Option Position}
      (hvalue : shownAs verbatim value = shownAs kept value) :
      Settled verbatim kept (.text .literal value position)
  | element {verbatim kept : Bool} {e : Element}
      (hvalues : ∀ a ∈ e.attributes, ∀ value, valueText? a = some value →
        shownAs (verbatim || isVerbatimTag e.tag) value = value)
      (hvoid : e.canHaveChildren = false →
        trimmed (verbatim || isVerbatimTag e.tag) isEdgeText e.children = [])
      (hedges : e.canHaveChildren → trimmed (verbatim || isVerbatimTag e.tag) isEdgeText e.children =
        trimmed (kept || keepsBlanks e) isEdgeText e.children)
      (hchildren : e.canHaveChildren → ∀ n ∈ e.children,
        Settled (verbatim || isVerbatimTag e.tag) (kept || keepsBlanks e) n) :
      Settled verbatim kept (.element e)

/-- Both show the texts of the roots of a view alike. The client takes several for the children of a fragment,
and the server does not. -/
def SettledRoots : List Node → Prop
  | [root] => Settled false false root
  | roots => Markup.trimEdges isEdgeText roots = roots ∧ ∀ n ∈ roots, Settled false false n

/-- Text at the edge of a list is shown alike where both keep blanks, and where neither does. -/
theorem settled_of_isEdgeText (h : isEdgeText n) : Settled kept kept n := by
  unfold isEdgeText at h
  split at h
  · exact .text rfl
  · cases h

theorem value_shown_iff {a : String × Option Node} (h : (fixedText? a.2).isSome) :
    (normalizedAttribute verbatim (a.1, attributeValue s a.1 a.2)).2.text? = valueText? a ↔
      ∀ value, valueText? a = some value → shownAs verbatim value = value := by
  obtain ⟨name, value⟩ := a
  cases value with
  | none =>
      unfold attributeValue valueText?
      split_ifs <;> simp [normalizedAttribute, Value.normalized, Value.text?]
  | some n =>
      obtain ⟨text, htext⟩ := Option.isSome_iff_exists.1 h
      obtain ⟨value, position, rfl, -⟩ := exists_of_fixedText? htext
      unfold attributeValue valueText?
      dsimp only
      split_ifs
      · simp [normalizedAttribute, Value.normalized, Value.text?]
      · simp [normalizedAttribute, Value.normalized, Value.text?, plainText, Node.literal?]

theorem map_shown_normalizedList (ns : List Node) :
    (normalizedList verbatim (ns.map (literalItem s))).map Item.shown =
      (trimmed verbatim isEdgeText ns).map fun n => ((literalItem s n).normalized verbatim).shown := by
  have hedge : (fun n => (literalItem s n).isEdgeText) = isEdgeText := funext isEdgeText_literalItem
  rw [normalizedList, trimmed_map, hedge, List.map_map, List.map_map]
  rfl

theorem settled_element_iff : Settled verbatim kept (.element e) ↔
    (∀ a ∈ e.attributes, ∀ value, valueText? a = some value →
      shownAs (verbatim || isVerbatimTag e.tag) value = value) ∧
    (e.canHaveChildren = false → trimmed (verbatim || isVerbatimTag e.tag) isEdgeText e.children = []) ∧
    (e.canHaveChildren →
      trimmed (verbatim || isVerbatimTag e.tag) isEdgeText e.children =
        trimmed (kept || keepsBlanks e) isEdgeText e.children ∧
      ∀ n ∈ e.children, Settled (verbatim || isVerbatimTag e.tag) (kept || keepsBlanks e) n) := by
  constructor
  · intro h
    cases h with
    | element hvalues hvoid hedges hchildren =>
        exact ⟨hvalues, hvoid, fun hcan => ⟨hedges hcan, hchildren hcan⟩⟩
  · rintro ⟨hvalues, hvoid, hcan⟩
    exact .element hvalues hvoid (fun h => (hcan h).1) fun h => (hcan h).2

/-- Children are shown alike if the same ones are dropped, and each of them is shown alike. -/
theorem map_shown_eq_iff (verbatim kept keepsEdges : Bool) {ns : List Node}
    (h : ∀ n ∈ ns, ((literalItem s n).normalized verbatim).shown = (normalizedNode kept n).shown ↔
      Settled verbatim kept n) (hkept : verbatim = keepsEdges → kept = verbatim) :
    (normalizedList verbatim (ns.map (literalItem s))).map Item.shown =
        ((trimmed keepsEdges isEdgeText ns).map (normalizedNode kept)).map Node.shown ↔
      trimmed verbatim isEdgeText ns = trimmed keepsEdges isEdgeText ns ∧
        ∀ n ∈ ns, Settled verbatim kept n := by
  have hdropped : ∀ n ∈ ns, isEdgeText n → verbatim = keepsEdges →
      ((literalItem s n).normalized verbatim).shown = (Node.shown ∘ normalizedNode kept) n := by
    rintro n hn hedge hsame
    exact (h n hn).2 (hkept hsame ▸ settled_of_isEdgeText hedge)
  rw [map_shown_normalizedList, List.map_map, map_trimmed_eq_iff hdropped]
  exact and_congr_right fun _ => forall₂_congr h

theorem shown_normalized_iff (h : IsLiteral n) : ((literalItem s n).normalized verbatim).shown =
    (normalizedNode kept n).shown ↔ Settled verbatim kept n := by
  induction h generalizing verbatim kept with
  | text value position =>
      constructor
      · intro h
        exact .text (Shown.text.inj h)
      · rintro ⟨hvalue⟩
        exact congrArg Shown.text hvalue
  | element hattributes hchildren ih =>
      next e =>
      rw [settled_element_iff, literalItem_element, normalized_element, Item.shown_element,
        normalizedNode_element, Node.shown_element, Shown.element.injEq, List.map_map, List.map_map]
      refine and_congr ?_ ?_
      · rw [List.map_inj_left]
        exact forall₂_congr fun a ha => value_shown_iff (hattributes a ha)
      · cases hcan : e.canHaveChildren with
        | false => simp [map_shown_normalizedList]
        | true =>
            have hmap := map_shown_eq_iff (s := s) (verbatim || isVerbatimTag e.tag) (kept || keepsBlanks e)
              (kept || keepsBlanks e) (fun n hn => ih n hn) Eq.symm
            simpa [normalizedChildren] using hmap

def rootNode : List Node → Node
  | [root] => root
  | roots => .element { tag := "", children := roots }

theorem shown_fragment_iff {roots : List Node} (h : ∀ n ∈ roots, IsLiteral n) :
    ((Item.element "" [] (roots.map (literalItem s))).normalized false).shown =
        (Node.element { tag := "", children := roots.map (normalizedNode false) }).shown ↔
      Markup.trimEdges isEdgeText roots = roots ∧ ∀ n ∈ roots, Settled false false n := by
  have htag : isVerbatimTag "" = false := by decide +kernel
  have hmap := map_shown_eq_iff (s := s) false false true (fun n hn => shown_normalized_iff (h n hn)) nofun
  rw [normalized_element, Item.shown_element, Node.shown_element, Shown.element.injEq, htag]
  exact (and_iff_right rfl).trans hmap

theorem shown_normalizedRoot_iff {v : View} (h : ∀ n ∈ v.children, IsLiteral n) :
    (normalizedRoot s v).shown = (rootNode (normalizedView v).children).shown ↔ SettledRoots v.children := by
  obtain ⟨name, clientOnly, serverOnly, roots, position⟩ := v
  match roots with
  | [] => exact shown_fragment_iff h
  | [root] => exact shown_normalized_iff (h root (List.mem_singleton_self root))
  | first :: second :: rest => exact shown_fragment_iff h

/-- With normalization, the server builds a view without code as the one it makes of it, and the client writes
the item it makes of it. The two have the same texts if and only if the view is settled. -/
theorem normalized_alike_iff (hs : s.normalizeWhitespace = true) {v : View} (h : ∀ n ∈ v.children, IsLiteral n) :
    buildView s v = buildView s.verbatim (normalizedView v) ∧
    (∃ gap depth, (gap = "" ∨ gap = line s 1) ∧
      writeRoots s v.children = .ok (gap ++ writeItem s.verbatim depth false (normalizedRoot s v))) ∧
    ((normalizedRoot s v).shown = (rootNode (normalizedView v).children).shown ↔ SettledRoots v.children) :=
  ⟨buildView_normalized hs h,
    (writesRoot v.children (itemsOf_literal fun n hn => itemOf_literal (h n hn))).normalized hs,
    shown_normalizedRoot_iff h⟩

def preElement : Element where
  tag := "pre"
  attributes := [("title", some (.text .literal "a  b" none))]
  children := [.text .literal "  c" none]

def boxElement : Element where
  tag := "div"
  children := [.text .literal "\n" none, .element preElement]

def boxedView : View where
  name := "V"
  children := [.element boxElement]

theorem settled_boxElement : Settled false false (.element boxElement) := by
  have hpre : Settled false false (.element preElement) := by
    have hinside : (false || isVerbatimTag preElement.tag) = true := by decide +kernel
    have hkept : (false || keepsBlanks preElement) = true := by decide +kernel
    rw [settled_element_iff, hinside, hkept]
    exact ⟨fun _ _ _ _ => rfl, fun h => absurd h (by decide +kernel),
      fun _ => ⟨rfl, List.forall_mem_singleton.2 (.text rfl)⟩⟩
  have hinside : (false || isVerbatimTag boxElement.tag) = false := by decide +kernel
  have hkept : (false || keepsBlanks boxElement) = false := by decide +kernel
  rw [settled_element_iff, hinside, hkept]
  exact ⟨nofun, fun h => absurd h (by decide +kernel),
    fun _ => ⟨rfl, List.forall_mem_cons.2 ⟨.text rfl, List.forall_mem_singleton.2 hpre⟩⟩⟩

theorem normalized_alike_iff_boxed :
    buildView { normalizeWhitespace := true } boxedView = buildView {} (normalizedView boxedView) ∧
    (∃ gap depth, writeRoots { normalizeWhitespace := true } boxedView.children =
      .ok (gap ++ writeItem {} depth false (normalizedRoot { normalizeWhitespace := true } boxedView))) ∧
    (normalizedRoot { normalizeWhitespace := true } boxedView).shown =
      (rootNode (normalizedView boxedView).children).shown := by
  have hpre : IsLiteral (.element preElement) :=
    .element (by decide) (List.forall_mem_singleton.2 (.text _ _))
  have hbox : IsLiteral (.element boxElement) :=
    .element nofun (List.forall_mem_cons.2 ⟨.text _ _, List.forall_mem_singleton.2 hpre⟩)
  obtain ⟨hserver, ⟨gap, depth, -, hclient⟩, hshown⟩ :=
    normalized_alike_iff (s := { normalizeWhitespace := true }) (v := boxedView) rfl
      (List.forall_mem_singleton.2 hbox)
  exact ⟨hserver, ⟨gap, depth, hclient⟩, hshown.2 settled_boxElement⟩

def titledElement : Element where
  tag := "p"
  attributes := [("title", some (.text .literal "a  b" none))]

def titledView : View where
  name := "V"
  children := [.element titledElement]

/-- The server keeps both blanks, and the client one of them. -/
theorem not_normalized_alike_title :
    ((buildNode { normalizeWhitespace := true } (.element titledElement)).run
      { target := viewClass none "V" }).toOption.map (·.2.buffer) = some "<p title=\"a  b\"></p>" ∧
    (writeRoots { normalizeWhitespace := true } titledView.children).toOption =
      some "\n\t['p', \x7b 'title' : 'a b' \x7d]" ∧
    (normalizedRoot { normalizeWhitespace := true } titledView).shown ≠
      (rootNode (normalizedView titledView).children).shown := by
  refine ⟨by decide +kernel, by decide +kernel, fun hshown => ?_⟩
  have hliteral : IsLiteral (.element titledElement) := .element (by decide) nofun
  have hsettled := (shown_normalizedRoot_iff (v := titledView) (List.forall_mem_singleton.2 hliteral)).1 hshown
  cases hsettled with
  | element hvalues =>
      have hkept := hvalues _ List.mem_cons_self "a  b" (by decide +kernel)
      exact absurd hkept (by decide +kernel)

end TwinView
