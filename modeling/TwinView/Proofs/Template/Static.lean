import TwinView.Proofs.Client.Readback
import TwinView.Proofs.Server.Extends
import TwinView.Proofs.Server.Nodes

/-!
Static markup: literal text, and elements whose attributes are literal. The server puts it into one
constant, and the client's value spells it, so both sides render the same text.
-/

namespace TwinView

open Client (IsBasicText)

variable {s : Settings} {n : Node} {ns : List Node}

/-- An attribute without a value or with literal text, which is neither a flag nor a link. -/
structure IsStaticAttribute (e : Element) (a : String × Option Node) : Prop where
  name : IsBasicText a.1
  value : a.2 = none ∨ ∃ value position, a.2 = some (.text .literal value position) ∧ IsBasicText value
  flag : Vocabulary.isFlagAttribute a.1 = false
  link : e.isLinkAttribute a.1 = false

/-- An element of ordinary content, with static attributes. On the client, the tags of commands begin
with a dollar sign, and those of comments and document types with an exclamation mark. -/
structure IsStaticElement (e : Element) : Prop where
  tag : IsBasicText e.tag
  ordinary : ∃ c cs, e.tag.toList = c :: cs ∧ c ≠ '$' ∧ c ≠ '!'
  children : e.canHaveChildren
  script : e.isTag "script" = false
  style : e.isTag "style" = false
  attributes : ∀ a ∈ e.attributes, IsStaticAttribute e a

inductive IsStatic : Node → Prop
  | literal {value : String} (position : Option Position) (h : IsBasicText value) :
      IsStatic (.text .literal value position)
  | element {e : Element} (h : IsStaticElement e) (hchildren : ∀ n ∈ e.children, IsStatic n) :
      IsStatic (.element e)

section

variable (nonAscii : Bool)

def elementMarkup (tag : String) (attributes : List (String × Option String)) (content : String) : String :=
  Markup.openTag tag ++ String.join (attributes.map fun a => Markup.wholeAttribute a.1 a.2) ++
    Markup.closeTag ++ content ++ Markup.endTag tag

def attributeText (a : String × Option Node) : String × Option String := (a.1, a.2.bind Node.literal?)

mutual

def staticMarkup : Node → String
  | .text _ value _ => Markup.literal nonAscii value
  | .element ⟨tag, attributes, children, _⟩ =>
    elementMarkup tag (attributes.map attributeText) (String.join (staticMarkups children))
  | _ => ""

def staticMarkups : List Node → List String
  | [] => []
  | n :: rest => staticMarkup n :: staticMarkups rest

end

theorem staticMarkups_eq (ns : List Node) : staticMarkups nonAscii ns = ns.map (staticMarkup nonAscii) := by
  induction ns with
  | nil => rfl
  | cons n rest ih => rw [staticMarkups, ih, List.map_cons]

end

namespace Server

open Code (ClassOf)

def Draft.plus (d : Draft) (markup : String) : Draft := { d with buffer := d.buffer ++ markup }

theorem runs_put {d : Draft} (markup : String) : Runs (put markup) d () (d.plus markup) := runs_modify.2 rfl

theorem Draft.plus_plus (d : Draft) (markup markup' : String) :
    (d.plus markup).plus markup' = d.plus (markup ++ markup') := by
  rw [plus, plus, plus, String.append_assoc]

theorem Draft.plus_empty (d : Draft) : d.plus "" = d := by rw [plus, String.append_empty]

/-- The builder only puts markup into the buffer, wherever text is not raw and no scripts have come up. -/
def PutsMarkup (x : Build Unit) (markup : String) : Prop :=
  ∀ d : Draft, d.mode ≠ .raw → d.hasScripts = false → Runs x d () (d.plus markup)

theorem putsMarkup_put (markup : String) : PutsMarkup (put markup) markup := fun _ _ _ => runs_put markup

theorem PutsMarkup.andThen {x y : Build Unit} {markup markup' : String} (hx : PutsMarkup x markup)
    (hy : PutsMarkup y markup') : PutsMarkup (do x; y) (markup ++ markup') := by
  intro d hmode hscripts
  rw [← Draft.plus_plus]
  exact runs_bind.2 ⟨(), _, hx d hmode hscripts, hy _ hmode hscripts⟩

theorem putsMarkup_runAll {α : Type} {xs : List α} {x : α → Build Unit} {markup : α → String}
    (h : ∀ a ∈ xs, PutsMarkup (x a) (markup a)) :
    PutsMarkup (runAll (xs.map x)) (String.join (xs.map markup)) := by
  induction xs with
  | nil =>
      intro d _ _
      rw [List.map_nil, List.map_nil, String.join_nil, Draft.plus_empty]
      exact runs_pure.2 ⟨rfl, rfl⟩
  | cons a xs ih =>
      obtain ⟨ha, hmore⟩ := List.forall_mem_cons.1 h
      rw [List.map_cons, List.map_cons, String.join_cons]
      exact ha.andThen (ih hmore)

theorem putsMarkup_buildLiteral (hnormalize : s.normalizeWhitespace = false) (value : String) :
    PutsMarkup (buildLiteral s value) (Markup.literal s.encodeNonAscii value) := by
  intro d hmode _
  refine runs_bind.2 ⟨d, d, runs_get.2 ⟨rfl, rfl⟩, ?_⟩
  cases hd : d.mode with
  | raw => exact absurd hd hmode
  | preformatted => exact runs_put _
  | normal =>
      simp only [hnormalize, Bool.false_and, Bool.false_eq_true, if_false]
      exact runs_put _

theorem runs_buildAttributes {e : Element} {attributes : List (String × Option Node)} {d : Draft}
    (h : ∀ a ∈ attributes, IsStaticAttribute e a) : Runs (buildAttributes s e {} attributes) d {} (d.plus
      (String.join ((attributes.map attributeText).map fun a => Markup.wholeAttribute a.1 a.2))) := by
  induction attributes generalizing d with
  | nil =>
      rw [List.map_nil, List.map_nil, String.join_nil, Draft.plus_empty]
      exact runs_pure.2 ⟨rfl, rfl⟩
  | cons a attributes ih =>
      obtain ⟨ha, hmore⟩ := List.forall_mem_cons.1 h
      obtain ⟨name, value⟩ := a
      rw [List.map_cons, List.map_cons, String.join_cons, ← Draft.plus_plus]
      obtain rfl | ⟨value, position, rfl, -⟩ := ha.value
      · exact runs_bind.2 ⟨(), _, runs_put _, ih hmore⟩
      · rw [buildAttributes, if_neg (by simp [ha.flag]), if_neg (by simp [ha.link])]
        exact runs_bind.2 ⟨{}, _, runs_bind.2 ⟨(), _, runs_put _, runs_pure.2 ⟨rfl, rfl⟩⟩, ih hmore⟩

theorem putsMarkup_buildContent {e : Element} {content : String}
    (hnormalize : s.normalizeWhitespace = false) (he : IsStaticElement e)
    (h : PutsMarkup (runAll (e.children.map (buildNode s))) content) :
    PutsMarkup (buildContent s e (e.children.map (buildNode s)))
      (Markup.closeTag ++ (content ++ Markup.endTag e.tag)) := by
  refine (putsMarkup_put _).andThen fun d hmode hscripts => ?_
  have hcontent : contentMode e d.mode ≠ .raw := by
    rw [contentMode, he.script, he.style]
    simp only [Bool.or_self, Bool.false_eq_true, if_false]
    split
    · nofun
    · exact hmode
  have hchildren : buildChildren s (e.children.zip (e.children.map (buildNode s))) =
      get >>= fun _ => runAll (e.children.map (buildNode s)) := by
    rw [buildChildren, zip_map_self, List.map_map]
    simp only [hnormalize, Bool.false_and, Bool.false_eq_true, if_false]
    rfl
  have hinside : Runs (buildChildren s (e.children.zip (e.children.map (buildNode s))))
      { d with mode := contentMode e d.mode } ()
      (Draft.plus { d with mode := contentMode e d.mode } content) := by
    rw [hchildren]
    exact runs_bind.2 ⟨_, _, runs_get.2 ⟨rfl, rfl⟩, h _ hcontent hscripts⟩
  rw [← Draft.plus_plus]
  refine runs_bind.2 ⟨d, d, runs_get.2 ⟨rfl, rfl⟩, runs_bind.2 ⟨(), _, runs_modify.2 rfl, ?_⟩⟩
  refine runs_bind.2 ⟨(), _, hinside, runs_bind.2 ⟨(), d.plus content, runs_modify.2 rfl, ?_⟩⟩
  refine runs_bind.2 ⟨_, _, runs_get.2 ⟨rfl, rfl⟩, ?_⟩
  rw [if_neg (by simp [Draft.plus, hscripts])]
  exact runs_put _

theorem putsMarkup_buildTagged {e : Element} {content : String} (hnormalize : s.normalizeWhitespace = false)
    (he : IsStaticElement e) (h : PutsMarkup (runAll (e.children.map (buildNode s))) content) :
    PutsMarkup (buildTagged s e (e.children.map (buildNode s)))
      (elementMarkup e.tag (e.attributes.map attributeText) content) := by
  simp only [elementMarkup, String.append_assoc]
  refine (putsMarkup_put _).andThen fun d hmode hscripts => ?_
  rw [← Draft.plus_plus]
  refine runs_bind.2 ⟨{}, _, runs_buildAttributes he.attributes, ?_⟩
  have hbody := putsMarkup_buildContent hnormalize he h
  have hchildren := he.children
  simp only [Pending.isEmpty, List.isEmpty_nil, Bool.and_self, if_true, hchildren]
  exact hbody _ hmode hscripts

theorem putsMarkup_buildNode (hnormalize : s.normalizeWhitespace = false) (h : IsStatic n) :
    PutsMarkup (buildNode s n) (staticMarkup s.encodeNonAscii n) := by
  induction h with
  | literal position _ =>
      rw [buildNode, buildText, staticMarkup]
      exact putsMarkup_buildLiteral hnormalize _
  | @element e he _ ih =>
      have htagged := putsMarkup_buildTagged hnormalize he (putsMarkup_runAll ih)
      have hscript := he.script
      obtain ⟨tag, attributes, children, position⟩ := e
      rw [buildNode, buildEach_eq, buildElement, hscript, staticMarkup, staticMarkups_eq]
      exact htagged

def writtenLiteral? : Code.Stmt → Option String
  | .expr (.invoke _ (.this _) "write" [_, .prim (.text value) _] _) _ => some value
  | .expr (.invoke _ (.this _) "write" [_, .prim (.char c) _] _) _ => some c.toString
  | _ => none

def writtenLiterals? (stmts : List Code.Stmt) : Option String :=
  (stmts.mapM writtenLiteral?).map String.join

theorem writtenLiteral?_write (markup : String) (origin : Code.Origin) :
    writtenLiteral? (write (.const (markupConstant markup)) origin) = some markup := by
  unfold markupConstant
  split
  · next c h =>
      rw [← String.ofList_toList (s := markup), h]
      rfl
  · rfl

theorem writtenLiterals?_flushed (d : Draft) : writtenLiterals? d.flushed = some d.buffer := by
  unfold Draft.flushed
  split
  · next h => rw [h]; rfl
  · simp [writtenLiterals?, Draft.pending, writtenLiteral?_write]

/-- A view that only puts markup out has a method that writes just that. -/
theorem exists_buildView {v : View} {markup : String} (hname : s.serverName v.name ≠ "")
    (h : PutsMarkup (runAll (buildEach s v.children)) markup) : ∃ c m, buildView s v = .ok c ∧
      c.findMethod? "render" = some m ∧ writtenLiterals? m.body = some markup := by
  generalize hsplit : splitName (s.serverName v.name) = p
  obtain ⟨package, name⟩ := p
  have hd := tidy_view package name
  generalize hview : ({ target := Code.viewClass package name } : Draft) = d at hd
  have hbody : Runs _ (d.withMethod.flush.opened true) () ((d.withMethod.flush.opened true).plus markup) :=
    h _ (by rw [← hview]; nofun) (by rw [← hview]; rfl)
  have hext := extends_put ((extends_withMethod hd).tidy.opened true) (runs_put markup)
  have hin := runs_inFrame.2 ⟨_, hbody, (close_of_extends hext).symm⟩
  have hmethod := runs_buildRenderMethod.2 ⟨_, _, hin, rfl, rfl⟩
  obtain ⟨-, e, he, hbuilt⟩ := extends_buildRenderMethod hd hmethod
  obtain ⟨-, rfl⟩ := Prod.mk.inj (Except.ok.inj (he.symm.trans hbody))
  obtain ⟨hdraft, hmem, -⟩ := hbuilt [] hext
  have hrun : Runs (do promote (← buildRenderMethod (runAll (buildEach s v.children)))) d () _ :=
    runs_bind.2 ⟨_, _, hmethod, runs_promote.2 rfl⟩
  refine ⟨_, _, ?_, ClassOf.findMethod?_of_mem (hdraft.tidy.distinct_promoted _)
    (ClassOf.mem_modifyFirst_self (f := asRender) hdraft.tidy.distinct hmem), ?_⟩
  · unfold buildView
    dsimp only
    rw [if_neg hname, hsplit, hview, show StateT.run _ d = _ from hrun]
    rfl
  · show writtenLiterals? (Draft.flushed _) = some markup
    rw [writtenLiterals?_flushed]
    simp [Draft.plus, Draft.opened]

end Server

namespace Client

/-- The name and the text of an attribute; `null` stands for no text. -/
def propertyText? : Script.PropertyKey × Script.Expr → Option (String × Option String)
  | (.text _ name, .null _) => some (name, none)
  | (.text _ name, .text _ value) => some (name, some value)
  | _ => none

/-- The markup of an array; without a tag it is that of its items. -/
def arrayMarkup (tag : String) (attributes : List (String × Option String)) (items : List String) :
    String :=
  if tag = "" then String.join items else elementMarkup tag attributes (String.join items)

mutual

/-- The markup that a value of the client stands for: text, or an array of a tag, of the attributes if
there are any, and of items. -/
def markup? (nonAscii : Bool) : Script.Expr → Option String
  | .text _ value => some (Markup.literal nonAscii value)
  | .array _ (.text _ tag :: .object _ props :: items) => do
    return arrayMarkup tag (← props.mapM propertyText?) (← markups? nonAscii items)
  | .array _ (.text _ tag :: items) => do
    return arrayMarkup tag [] (← markups? nonAscii items)
  | _ => none

def markups? (nonAscii : Bool) : List Script.Expr → Option (List String)
  | [] => some []
  | e :: rest => do return (← markup? nonAscii e) :: (← markups? nonAscii rest)

end

structure ShowsText (s : Settings) : Prop where
  normalize : s.normalizeWhitespace = false
  convert : s.convertLineEndings = false

theorem shownText_eq (hs : ShowsText s) (verbatim : Bool) (value : String) :
    shownText s verbatim value = value := by
  simp [shownText, convertText, hs.normalize, hs.convert]

theorem propertyText?_attributeTree (hs : ShowsText s) (verbatim : Bool) {e : Element}
    {a : String × Option Node} (h : IsStaticAttribute e a) :
    propertyText? (.text 0 (shownText s verbatim a.1), attributeTree s verbatim a.1 a.2) =
      some (attributeText a) := by
  obtain ⟨name, value⟩ := a
  obtain rfl | ⟨value, position, rfl, -⟩ := h.value
  · simp only [attributeTree, h.flag, Bool.false_eq_true, if_false, shownText_eq hs]
    rfl
  · simp only [attributeTree, h.flag, Bool.false_eq_true, if_false, shownText_eq hs]
    rfl

/-- An object is no item that has markup, so it is told from the attributes. -/
theorem markup?_array {tag : String} {items : List Script.Expr} {contents : List String} {nonAscii : Bool}
    (h : markups? nonAscii items = some contents) :
    markup? nonAscii (.array 0 (.text 0 tag :: items)) = some (arrayMarkup tag [] contents) := by
  rw [markup?, h]
  · rfl
  · rintro start props items rfl
    simp [markups?, markup?] at h

def elementProperties (s : Settings) (verbatim : Bool) (attributes : List (String × Option Node)) :
    List (String × Script.Expr) :=
  attributes.map fun (name, value) => (shownText s verbatim name, attributeTree s verbatim name value)

theorem mapM_propertyText? (hs : ShowsText s) (verbatim : Bool) {e : Element}
    {attributes : List (String × Option Node)} (h : ∀ a ∈ attributes, IsStaticAttribute e a) :
    ((elementProperties s verbatim attributes).map fun p =>
      (Script.PropertyKey.text 0 p.1, p.2)).mapM propertyText? = some (attributes.map attributeText) := by
  induction attributes with
  | nil => rfl
  | cons a attributes ih =>
      obtain ⟨ha, hmore⟩ := List.forall_mem_cons.1 h
      have hfirst := propertyText?_attributeTree hs verbatim ha
      simp only [elementProperties, List.map_cons, List.mapM_cons] at ih ⊢
      rw [ih hmore]
      simp [hfirst]

theorem markup?_listing (hs : ShowsText s) (verbatim : Bool) {e : Element} {items : List Script.Expr}
    {contents : List String} {nonAscii : Bool} (hattributes : ∀ a ∈ e.attributes, IsStaticAttribute e a)
    (h : markups? nonAscii items = some contents) :
    markup? nonAscii
        (listing (shownText s verbatim e.tag) (elementProperties s verbatim e.attributes) items) =
      some (arrayMarkup e.tag (e.attributes.map attributeText) contents) := by
  rw [listing, shownText_eq hs]
  split
  · next hempty =>
      have hnone : e.attributes = [] := by simpa [elementProperties] using hempty
      rw [hnone]
      exact markup?_array h
  · rw [Script.objectOf, List.singleton_append, markup?, mapM_propertyText? hs verbatim hattributes, h]
    rfl

def Spells (s : Settings) (verbatim : Bool) (n : Node) (markup : String) : Prop :=
  ∃ e, nodeTree s verbatim n = some e ∧ markup? s.encodeNonAscii e = some markup

theorem markups?_nodeTrees {verbatim : Bool} {markup : Node → String}
    (h : ∀ n ∈ ns, Spells s verbatim n (markup n)) :
    markups? s.encodeNonAscii ((nodeTrees s verbatim ns).filterMap (·.2)) = some (ns.map markup) := by
  induction ns with
  | nil => rfl
  | cons n ns ih =>
      obtain ⟨⟨e, htree, hmarkup⟩, hmore⟩ := List.forall_mem_cons.1 h
      simp [nodeTrees, htree, markups?, hmarkup, ih hmore]

theorem shownItems_eq (hs : ShowsText s) (verbatim : Bool) (entries : List (Bool × Option Script.Expr)) :
    shownItems s verbatim entries = entries.filterMap (·.2) := by
  rw [shownItems, hs.normalize]
  rfl

theorem spells_staticMarkup (hs : ShowsText s) (h : IsStatic n) (verbatim : Bool) :
    Spells s verbatim n (staticMarkup s.encodeNonAscii n) := by
  induction h generalizing verbatim with
  | literal position _ =>
      refine ⟨_, by rw [nodeTree], ?_⟩
      rw [markup?, shownText_eq hs, staticMarkup]
  | @element e he _ ih =>
      have hitems := markups?_nodeTrees fun n hn => ih n hn (verbatim || isVerbatimTag e.tag)
      rw [← shownItems_eq hs (verbatim || isVerbatimTag e.tag)] at hitems
      have hlisting := markup?_listing hs (verbatim || isVerbatimTag e.tag) he.attributes hitems
      obtain ⟨c, cs, htag, -⟩ := he.ordinary
      have hne : e.tag ≠ "" := by
        rintro hempty
        rw [hempty] at htag
        cases htag
      obtain ⟨tag, attributes, children, position⟩ := e
      refine ⟨_, by rw [nodeTree]; rfl, hlisting.trans ?_⟩
      rw [arrayMarkup, if_neg hne, staticMarkup, staticMarkups_eq]

/-- What a static view is bound to spells the markup of its roots. -/
theorem exists_rootTree (hs : ShowsText s) (h : ∀ n ∈ ns, IsStatic n) : ∃ e, rootTree s ns = some e ∧
    markup? s.encodeNonAscii e = some (String.join (ns.map (staticMarkup s.encodeNonAscii))) := by
  have hfragment : ∃ e, some (listing "" [] (shownItems s false (nodeTrees s false ns))) = some e ∧
      markup? s.encodeNonAscii e = some (String.join (ns.map (staticMarkup s.encodeNonAscii))) := by
    have hitems := markups?_nodeTrees fun n hn => spells_staticMarkup hs (h n hn) false
    refine ⟨_, rfl, ?_⟩
    rw [listing, shownItems_eq hs]
    exact markup?_array hitems
  unfold rootTree
  split
  · next root =>
      obtain ⟨e, htree, hmarkup⟩ := spells_staticMarkup hs (h root List.mem_cons_self) false
      refine ⟨e, htree, ?_⟩
      rw [hmarkup, List.map_singleton, String.join_cons, String.join_nil, String.append_empty]
  · exact hfragment

theorem isReadable_attributeValue {e : Element} {a : String × Option Node} (h : IsStaticAttribute e a) :
    (attributeValue s a.1 a.2).IsReadable := by
  obtain ⟨name, value⟩ := a
  obtain rfl | ⟨value, position, rfl, hvalue⟩ := h.value
  · simp [attributeValue, h.flag, Value.IsReadable]
  · simpa [attributeValue, h.flag, plainText, Value.IsReadable] using hvalue

def givenValues (s : Settings) (attributes : List (String × Option Node)) : List (String × Value) :=
  attributes.map fun (name, value) => (name, attributeValue s name value)

theorem exists_itemsOf (h : ∀ n ∈ ns, ∃ item, itemOf s n = .ok item ∧ item.IsReadable) :
    ∃ items, itemsOf s ns = .ok items ∧ Item.areReadable items := by
  induction ns with
  | nil => exact ⟨[], rfl, trivial⟩
  | cons n ns ih =>
      obtain ⟨⟨item, hitem, hreadable⟩, hmore⟩ := List.forall_mem_cons.1 h
      obtain ⟨items, hitems, hall⟩ := ih hmore
      exact ⟨item :: items, by rw [itemsOf, hitem, hitems]; rfl, hreadable, hall⟩

theorem exists_itemOf (h : IsStatic n) : ∃ item, itemOf s n = .ok item ∧ item.IsReadable := by
  induction h with
  | literal position hvalue => exact ⟨_, rfl, hvalue⟩
  | @element e he _ ih =>
      obtain ⟨items, hitems, hreadable⟩ := exists_itemsOf ih
      have hvalues : ∀ a ∈ givenValues s e.attributes, IsBasicText a.1 ∧ a.2.IsReadable := by
        intro a ha
        obtain ⟨a, hmem, rfl⟩ := List.mem_map.1 ha
        exact ⟨(he.attributes a hmem).name, isReadable_attributeValue (he.attributes a hmem)⟩
      have htag := he.tag
      obtain ⟨tag, attributes, children, position⟩ := e
      have hitem : itemOf s (.element ⟨tag, attributes, children, position⟩) =
          .ok (.element tag (givenValues s attributes) items) := by
        rw [itemOf, hitems]
        rfl
      exact ⟨_, hitem, htag, hvalues, hreadable⟩

theorem areReadable_of_isStatic (h : ∀ n ∈ ns, IsStatic n) : AreReadable s ns := by
  intro items hitems
  obtain ⟨items', hitems', hreadable⟩ := exists_itemsOf fun n hn => exists_itemOf (h n hn)
  obtain rfl := Except.ok.inj (hitems.symm.trans hitems')
  exact hreadable

theorem exists_writeRoots (h : ∀ n ∈ ns, IsStatic n) : ∃ written, writeRoots s ns = .ok written := by
  unfold writeRoots
  split
  · next root =>
      obtain ⟨item, hitem, -⟩ := exists_itemOf (s := s) (h root List.mem_cons_self)
      exact ⟨_, by rw [hitem]; rfl⟩
  · obtain ⟨items, hitems, -⟩ := exists_itemsOf (s := s) fun n hn => exists_itemOf (h n hn)
    exact ⟨_, by rw [hitems]; rfl⟩

theorem exists_compile {v : View} (hserver : v.serverOnly = false)
    (hname : Text.isDottedName (s.clientName v.name)) (h : ∀ n ∈ v.children, IsStatic n) :
    ∃ text, compile s [v] = .ok text := by
  obtain ⟨written, hwritten⟩ := exists_writeRoots (s := s) h
  unfold compile writeViews
  simp only [hserver, declareNamespaces, hname, if_true, writeView, hwritten, writeViews]
  exact ⟨_, rfl⟩

end Client

theorem trim_ne_empty {root : Option String} {view : String}
    (h : Text.isDottedName (Settings.qualify root view)) : Text.trim view ≠ "" := by
  intro hempty
  have hnone : Text.isSimpleName "" = false := by decide
  unfold Settings.qualify at h
  rw [hempty] at h
  split at h
  · next r _ =>
      have htext : (r ++ "." ++ "").toList = r.toList ++ '.' :: [] := by simp
      rw [Text.isDottedName, htext, Text.splitAt_append, List.all_append, Bool.and_eq_true] at h
      exact absurd h.2 (by simp [Text.splitAt, hnone])
  · exact absurd h (by simp [Text.isDottedName, Text.splitAt, hnone])

/-- A view with a proper name on the client has a name on the server. -/
theorem serverName_ne_empty {view : String} (h : Text.isDottedName (s.clientName view)) :
    s.serverName view ≠ "" := by
  have hview := trim_ne_empty h
  unfold Settings.serverName Settings.qualify
  split
  · simp
  · exact hview

/-- Both sides render a static view alike. The server's method writes nothing but literals, the client's
text is read as one binding to a call with one argument, and the markup of that argument is what the
literals are together. -/
theorem markup_alike (hs : Client.BlankLayout s) (hshows : Client.ShowsText s) {v : View}
    (hserver : v.serverOnly = false) (hname : Text.isDottedName (s.clientName v.name))
    (h : ∀ n ∈ v.children, IsStatic n) :
    ∃ c m text program arg html,
      Server.buildView s v = .ok c ∧ c.findMethod? "render" = some m ∧
      Server.writtenLiterals? m.body = some html ∧
      Client.compile s [v] = .ok text ∧ Script.parse text = .ok program ∧
      (Script.Stmt.allUnplaced program).filterMap (Script.binding? "duel") =
        [(s.clientName v.name, [arg])] ∧
      Client.markup? s.encodeNonAscii arg = some html := by
  have hmarkup := Server.putsMarkup_runAll fun n hn => Server.putsMarkup_buildNode hshows.normalize (h n hn)
  rw [← Server.buildEach_eq] at hmarkup
  obtain ⟨c, m, hview, hm, hwritten⟩ := Server.exists_buildView (serverName_ne_empty hname) hmarkup
  obtain ⟨text, htext⟩ := Client.exists_compile hserver hname h
  obtain ⟨arg, harg, hspells⟩ := Client.exists_rootTree hshows h
  have hviews : Client.clientViews [v] = [v] := by simp [Client.clientViews, hserver]
  have hreadable : ∀ v' ∈ Client.clientViews [v], Client.AreReadable s v'.children := by
    rw [hviews]
    exact List.forall_mem_singleton.2 (Client.areReadable_of_isStatic h)
  obtain ⟨sts, hsts, hbindings⟩ := Client.sentences_compile hs hreadable htext
  obtain ⟨program, hparse, rfl⟩ := hsts.exists_parse
  rw [hviews, List.map_singleton, Client.bindingOf, harg] at hbindings
  exact ⟨c, m, text, program, arg, _, hview, hm, hwritten, htext, hparse, hbindings, hspells⟩

def paragraph : View where
  name := "pages.About"
  children := [
    .text .literal "\n" none,
    .element {
      tag := "p"
      attributes := [("title", some (.text .literal "\"1 < 2\"" none)), ("data-note", none)]
      children := [.element { tag := "pre", children := [.text .literal " caf\u00e9 " none] }] }]

theorem isStatic_paragraph : ∀ n ∈ paragraph.children, IsStatic n := by
  have hpre : IsStatic (.element { tag := "pre", children := [.text .literal " caf\u00e9 " none] }) := by
    refine .element ⟨by decide, ⟨_, _, rfl, by decide, by decide⟩, by decide +kernel, by decide +kernel,
      by decide +kernel, nofun⟩ ?_
    exact List.forall_mem_singleton.2 (.literal none (by decide))
  refine List.forall_mem_cons.2 ⟨.literal none (by decide), List.forall_mem_singleton.2 ?_⟩
  refine .element ⟨by decide, ⟨_, _, rfl, by decide, by decide⟩, by decide +kernel, by decide +kernel,
    by decide +kernel, ?_⟩ (List.forall_mem_singleton.2 hpre)
  refine List.forall_mem_cons.2 ⟨⟨by decide, ?_, by decide +kernel, by decide +kernel⟩, ?_⟩
  · exact .inr ⟨_, _, rfl, by decide⟩
  · exact List.forall_mem_singleton.2 ⟨by decide, .inl rfl, by decide +kernel, by decide +kernel⟩

theorem markup_alike_paragraph :
    ∃ c m text program arg,
      Server.buildView {} paragraph = .ok c ∧ c.findMethod? "render" = some m ∧
      Server.writtenLiterals? m.body =
        some "\n<p title=\"&quot;1 &lt; 2&quot;\" data-note><pre> caf&eacute; </pre></p>" ∧
      Client.compile {} [paragraph] = .ok text ∧ Script.parse text = .ok program ∧
      (Script.Stmt.allUnplaced program).filterMap (Script.binding? "duel") = [("pages.About", [arg])] ∧
      Client.markup? true arg =
        some "\n<p title=\"&quot;1 &lt; 2&quot;\" data-note><pre> caf&eacute; </pre></p>" := by
  have hname : Settings.clientName {} "pages.About" = "pages.About" := by decide
  have hs : Client.BlankLayout {} := ⟨by decide, by decide⟩
  obtain ⟨c, m, text, program, arg, html, hview, hm, hwritten, htext, hparse, hbindings, hspells⟩ :=
    markup_alike hs ⟨rfl, rfl⟩ (v := paragraph) rfl (by decide) isStatic_paragraph
  have hhtml : (Server.buildView {} paragraph).toOption.bind
      (fun c => (c.findMethod? "render").bind fun m => Server.writtenLiterals? m.body) =
        some "\n<p title=\"&quot;1 &lt; 2&quot;\" data-note><pre> caf&eacute; </pre></p>" := by
    decide +kernel
  obtain rfl : html = _ := Option.some.inj (by simpa [hview, hm, hwritten, Except.toOption] using hhtml)
  exact ⟨c, m, text, program, arg, hview, hm, hwritten, htext, hparse, by rwa [← hname], hspells⟩

end TwinView
