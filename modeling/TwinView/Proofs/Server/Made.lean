import TwinView.Proofs.Server.Nodes
import TwinView.Proofs.Server.Required
import TwinView.Proofs.Server.Statements

/-!
What builders are made of. A builder is put together from a few kinds of steps, and each kind says what the
step is given: the statements it adds, the blocks it can be refused for, and whether markup waits before and
behind it. What holds of every kind of step holds of every builder, so that a property of builders is shown
by one induction and the builders are gone through once.
-/

namespace TwinView.Server

open Code

/-- Where builders are at work: the settings, the blocks whose values may be rendered, and the blocks that
have to run on the server. -/
structure Site where
  settings : Settings
  written : List CodeBlock
  required : List CodeBlock

abbrev Probed (α : Type) := Probe → Build α

/-- A block gives an expression with a value, or it is refused as it is on its own. -/
def Translates (b : CodeBlock) : Except Error Fragment → Prop
  | .ok f => f.expr.HasValue
  | .error e => Blames [b] e

/-- How builders are made of steps. Before the builder nothing waits in the buffer if `i` holds; behind it
nothing waits if `j` holds, and its result has the property. -/
inductive Made (w : Site) : {α : Type} → Prop → Probed α → (α → Prop) → Prop → Prop
  | result {α : Type} {i : Prop} {Q : α → Prop} {a : α} (h : Q a) : Made w i (fun _ => Pure.pure a) Q i
  | bind {α β : Type} {i j k : Prop} {Q : α → Prop} {R : β → Prop} {x : Probed α} {f : Probe → α → Build β}
      (hx : Made w i x Q j) (hf : ∀ a, Q a → Made w j (fun p => f p a) R k) :
      Made w i (fun p => x p >>= f p) R k
  | weaken {α : Type} {i i' j j' : Prop} {Q Q' : α → Prop} {x : Probed α} (h : Made w i x Q j) (hi : i → i')
      (hq : ∀ a, Q a → Q' a) (hj : j' → j) : Made w i' x Q' j'
  | throw {α : Type} {i j : Prop} {Q : α → Prop} {e : Error} (h : Blames w.required e) :
      Made w i (fun _ => throw e) Q j
  | get {i : Prop} : Made w i (fun _ => get) (fun _ => True) i
  | put {i : Prop} (markup : String) : Made w i (fun _ => put markup) (fun _ => True) False
  | flush {i : Prop} : Made w i (fun _ => flush) (fun _ => True) True
  | note {i : Prop} {f : Draft → Draft} (h : ∀ d, ∃ hasCall needsExtras hasScripts,
      f d = { d with hasCall, needsExtras, hasScripts }) : Made w i (fun _ => modify f) (fun _ => True) i
  | add {stmt : Stmt} (h : AllEmitted w.settings w.written [stmt]) :
      Made w True (fun _ => add stmt) (fun _ => True) True
  | freshName {i : Prop} (stem : String) : Made w i (fun _ => freshName stem) (fun _ => True) i
  /-- A declaration may overtake markup that waits. -/
  | declare {i : Prop} (type : Ty) (stem : String) (init : Expr) :
      Made w i (fun _ => declare type stem init) (fun e => ∃ name, e = .variableRef type name) i
  | addToInit {i : Prop} {stmt : Stmt} (h : AllEmitted w.settings w.written [stmt]) :
      Made w i (fun _ => addToInit stmt) (fun _ => True) i
  | newField {i : Prop} : Made w i (fun _ => newField) (fun _ => True) i
  | fragment? {i : Prop} (b : CodeBlock) (canDefer : Bool) :
      Made w i (fun _ => fragment? b canDefer) (Translates b) i
  | tryArguments {i : Prop} {args : List (Option CodeBlock × Param)} {Q : Except Error (List Expr) → Prop}
      (h : Made w i (fun _ => arguments? args) Q i) : Made w i (fun _ => tryArguments args) Q i
  | inFrame {j : Prop} {x : Probed Unit} (ofMethod : Bool) (h : Made w True x (fun _ => True) j) :
      Made w True (fun p => inFrame ofMethod (x p)) (AllEmitted w.settings w.written) True
  | inContent {x : Probed Unit} (e : Element) (h : Made w False x (fun _ => True) False) :
      Made w False (fun p => inContent e (x p)) (fun _ => True) False
  | buildRenderMethod {i j : Prop} {x : Probed Unit} (h : Made w True x (fun _ => True) j) :
      Made w i (fun p => buildRenderMethod (x p)) (fun name => name ≠ "write") True
  | buildPart {i : Prop} {Q : String → Prop} {part : Probe → PartOf (Build Unit)} (name : String)
      (hname : ∀ p, (part p).name = name)
      (h : Made w False (fun p => buildRenderMethod (runAll (part p).children)) Q True) :
      Made w i (fun p => buildPart (part p)) (fun _ => True) True
  | visit {x : Probed Unit} (h : Made w False x (fun _ => True) False) :
      Made w False (fun p => visit (x p)) (fun _ => True) False

variable {α : Type} {w : Site} {i j : Prop} {Q : α → Prop} {x y : Probed α} {e : Element}

namespace Made

theorem forget (h : Made w i x Q j) : Made w i x Q False := h.weaken id (fun _ => id) False.elim

theorem anywhere (h : Made w False x Q j) : Made w i x Q j := h.weaken False.elim (fun _ => id) id

theorem done (a : α) : Made w i (fun _ => Pure.pure a) (fun _ => True) i := .result trivial

theorem ite {c : Prop} [Decidable c] (h : Made w i x Q j) (h' : Made w i y Q j) :
    Made w i (fun p => if c then x p else y p) Q j := by
  split
  · exact h
  · exact h'

end Made

/-! Code blocks. -/

theorem made_noteScript : Made w i (fun _ => noteScript) (fun _ => True) i := .note fun _ => ⟨_, _, _, rfl⟩

theorem made_putCall : Made w i (fun _ => putCall) (fun _ => True) False :=
  (Made.put _).bind fun _ _ => .note fun _ => ⟨_, _, _, rfl⟩

theorem made_ensureExtras (inMarkup : Bool) : Made w i (fun _ => ensureExtras inMarkup) (fun _ => True) False := by
  refine Made.get.bind fun _ _ => .ite ?_ (Made.done _).forget
  refine Made.flush.bind fun _ _ => (Made.add (emitted_renderCall (by decide) _ (by simp))).bind fun _ _ => ?_
  refine (Made.note fun d => ?_).forget
  split
  · exact ⟨_, _, _, rfl⟩
  · exact ⟨_, _, _, rfl⟩

theorem made_addAll {stmts : List Stmt} (h : AllEmitted w.settings w.written stmts) :
    Made w True (fun _ => addAll stmts) (fun _ => True) True := by
  induction stmts with
  | nil => exact .done ()
  | cons stmt rest ih =>
      obtain ⟨hfirst, hrest⟩ := Stmt.forall_allOf_append.1 (show AllEmitted _ _ ([stmt] ++ rest) from h)
      exact (Made.add hfirst).bind fun _ _ => ih hrest

theorem made_addCondition {test : Expr} {x : Probed Unit} (h : Made w True x (fun _ => True) j) :
    Made w True (fun p => addCondition test (x p)) (fun _ => True) True :=
  (h.inFrame false).bind fun _ hs => .add (allEmitted_cond hs .nil)

theorem made_requiredExpr {b : CodeBlock} (hb : b ∈ w.required) :
    Made w i (fun _ => requiredExpr b) Expr.HasValue i := by
  refine (Made.fragment? b false).bind fun r hr => ?_
  cases r with
  | error e => exact .throw (hr.mono (by simpa using hb))
  | ok f => exact .result hr

theorem made_putScriptOpen (withId : Bool) :
    Made w i (fun _ => putScriptOpen w.settings withId) (fun _ => True) False :=
  have hid : Made w False (fun _ => if withId then put (Markup.openAttribute "id") else pure ()) (fun _ => True) False :=
    .ite (.put _) (.done ())
  (Made.put _).bind fun _ _ => .ite ((Made.put _).bind fun _ _ => hid) hid

theorem made_openScriptWithId : Made w i (fun _ => openScriptWithId w.settings) (fun _ => True) False := by
  refine made_noteScript.bind fun _ _ => (made_putScriptOpen true).bind fun _ _ => Made.flush.bind fun _ _ => ?_
  refine (Made.declare _ _ _).bind fun id hid => ?_
  obtain ⟨name, rfl⟩ := hid
  exact (Made.add (allEmitted_writeId name)).bind fun _ _ => (Made.put _).bind fun _ _ =>
    (Made.put _).bind fun _ _ => (made_ensureExtras _).bind fun _ _ => .done _

theorem made_writeData (e : Expr) : Made w i (fun _ => do flush; add (writeData e)) (fun _ => True) True :=
  Made.flush.bind fun _ _ => .add (allEmitted_writeData e)

theorem made_putData (values : List Expr) : Made w i (fun _ => putData values) (fun _ => True) False := by
  refine Made.anywhere ?_
  induction values with
  | nil => exact .done ()
  | cons e rest ih =>
      cases rest with
      | nil => exact (made_writeData e).forget
      | cons =>
          exact Made.flush.bind fun _ _ => (Made.add (allEmitted_writeData e)).bind fun _ _ =>
            (Made.put _).bind fun _ _ => ih

theorem made_buildDeferredBlock (b : CodeBlock) :
    Made w i (fun _ => buildDeferredBlock w.settings b) (fun _ => True) False :=
  made_openScriptWithId.bind fun id _ => (Made.put _).bind fun _ _ => (made_putData _).bind fun _ _ =>
    made_putCall.bind fun _ _ => Made.flush.bind fun _ _ => (Made.add (allEmitted_writeData id)).bind fun _ _ =>
      (Made.put _).bind fun _ _ => .put _

/-- A block whose value is rendered is left to the client if it is refused. -/
theorem made_buildBlock {b : CodeBlock} (hb : b ∈ w.written) :
    Made w i (fun _ => buildBlock w.settings b) (fun _ => True) False := by
  refine (Made.fragment? _ true).bind fun r hr => ?_
  cases r with
  | error _ => exact made_buildDeferredBlock _
  | ok f =>
      refine Made.flush.bind fun _ _ => .ite ?_ (Made.add (allEmitted_writeValue hb hr)).forget
      refine (Made.declare _ _ _).bind fun value hvalue => ?_
      obtain ⟨name, rfl⟩ := hvalue
      refine ((made_buildDeferredBlock _).inFrame false).bind fun fallback hf => ?_
      exact (Made.add (allEmitted_cond (allEmitted_writeValue hb (hasValue_variableRef name)) hf)).forget

/-! Attributes. -/

theorem made_putAttribute (name : String) {stmt : Stmt} (h : AllEmitted w.settings w.written [stmt]) :
    Made w i (fun _ => putAttribute name stmt) (fun _ => True) False :=
  (Made.put _).bind fun _ _ => Made.flush.bind fun _ _ => (Made.add h).bind fun _ _ => .put _

theorem made_buildFlag (pending : Pending) (name : String) (n : Node) :
    Made w i (fun _ => buildFlag w.settings pending name n) (fun _ => True) False := by
  cases n with
  | text kind =>
      cases kind with
      | literal => exact .ite ((Made.put _).bind fun _ _ => .done _) (Made.done _).forget
      | _ => exact (Made.done _).forget
  | code b =>
      refine (Made.fragment? b false).bind fun r _ => ?_
      cases r with
      | error _ => exact (Made.done _).forget
      | ok f => exact Made.flush.bind fun _ _ => (made_addCondition (.put _)).bind fun _ _ => (Made.done _).forget
  | _ => exact (Made.done _).forget

theorem made_buildLink (pending : Pending) (name : String) {n : Node} (hn : ∀ b, n = .code b → b ∈ w.written) :
    Made w i (fun _ => buildLink w.settings e pending name n) (fun _ => True) False := by
  cases n with
  | text kind =>
      cases kind with
      | literal => exact (made_putAttribute name (allEmitted_link _)).bind fun _ _ => .done _
      | _ => exact .throw (blames_template _ _)
  | code b =>
      refine (Made.fragment? _ true).bind fun r _ => ?_
      cases r with
      | error _ => exact (Made.done _).forget
      | ok f =>
          exact (made_putAttribute name (allEmitted_writeValue (hn b rfl) (hasValue_transformedUrl _))).bind
            fun _ _ => .done _
  | _ => exact .throw (blames_template _ _)

theorem made_buildPlain (pending : Pending) (name : String) {n : Node} (hn : ∀ b, n = .code b → b ∈ w.written) :
    Made w i (fun _ => buildPlain w.settings e pending name n) (fun _ => True) False := by
  cases n with
  | text kind =>
      cases kind with
      | literal => exact (Made.put _).bind fun _ _ => .done _
      | _ => exact .throw (blames_template _ _)
  | code b =>
      refine (Made.fragment? _ true).bind fun r hr => ?_
      cases r with
      | error _ => exact (Made.done _).forget
      | ok f =>
          refine .ite ?_ ((made_putAttribute name (allEmitted_writeValue (hn b rfl) hr)).bind fun _ _ => .done _)
          refine Made.flush.bind fun _ _ => (Made.declare _ _ _).bind fun value hvalue => ?_
          obtain ⟨v, rfl⟩ := hvalue
          exact (made_addCondition (made_putAttribute name (allEmitted_writeValue (hn b rfl)
            (hasValue_variableRef v)))).bind fun _ _ => (Made.done _).forget
  | _ => exact .throw (blames_template _ _)

theorem made_buildAttributes (pending : Pending) {attributes : List (String × Option Node)}
    (h : attributeBlocks attributes ⊆ w.written) :
    Made w False (fun _ => buildAttributes w.settings e pending attributes) (fun _ => True) False := by
  induction attributes generalizing pending with
  | nil => exact .done _
  | cons a rest ih =>
      obtain ⟨name, value⟩ := a
      cases value with
      | none => exact (Made.put _).bind fun _ _ => ih pending (by simpa [attributeBlocks] using h)
      | some n =>
          have hn : ∀ b, n = .code b → b ∈ w.written := by
            rintro b rfl
            exact h (by simp [attributeBlocks, Node.block?])
          have hrest : attributeBlocks rest ⊆ w.written := by
            intro b hb
            apply h
            rw [attributeBlocks, List.filterMap_cons]
            split
            · exact hb
            · exact List.mem_cons_of_mem _ hb
          exact .ite ((made_buildFlag pending name n).bind fun p _ => ih p hrest)
            (.ite ((made_buildLink pending name hn).bind fun p _ => ih p hrest)
              ((made_buildPlain pending name hn).bind fun p _ => ih p hrest))

theorem made_buildElementId (pending : Pending) :
    Made w i (fun _ => buildElementId e pending) (fun _ => True) False := by
  unfold buildElementId
  cases e.attribute? "id" with
  | none =>
      refine (Made.declare _ _ _).bind fun id hid => ?_
      obtain ⟨name, rfl⟩ := hid
      cases pending.deferred.isEmpty with
      | false => exact (made_putAttribute _ (allEmitted_writeId name)).bind fun _ _ => .done _
      | true =>
          cases someUndefined pending.hybrids with
          | none => exact (Made.done _).forget
          | some test =>
              exact Made.flush.bind fun _ _ => (made_addCondition (made_putAttribute _ (allEmitted_writeId name))).bind
                fun _ _ => (Made.done _).forget
  | some n =>
      cases n with
      | text kind =>
          cases kind with
          | literal => exact (Made.done _).forget
          | _ => exact .throw (blames_template _ _)
      | _ => exact .throw (blames_template _ _)

theorem made_putAttributeCall (attributes : List (String × Client.Data)) (id : ElementId) (arity : Nat) :
    Made w i (fun _ => putAttributeCall attributes id arity) (fun _ => True) False := by
  refine (made_ensureExtras false).bind fun _ _ => (Made.put _).bind fun _ _ => (made_putData _).bind fun _ _ =>
    made_putCall.bind fun _ _ => ?_
  cases id with
  | declared id => exact Made.flush.bind fun _ _ => (Made.add (allEmitted_writeData id)).bind fun _ _ => .put _
  | given => exact (Made.put _).bind fun _ _ => .put _

theorem made_putScriptTag : Made w i (fun _ => putScriptTag w.settings) (fun _ => True) False :=
  (made_putScriptOpen false).bind fun _ _ => .put _

theorem made_buildHybridCalls (id : ElementId) {opened : Option Expr}
    (ho : ∀ flag ∈ opened, ∃ name, flag = .variableRef .boolean name) (hybrids : List Hybrid) :
    Made w i (fun _ => buildHybridCalls w.settings id opened hybrids) (fun _ => True) (hybrids = [] → i) := by
  induction hybrids generalizing i with
  | nil => exact (Made.done ()).weaken (fun h => h) (fun _ h => h) fun h => h rfl
  | cons hybrid rest ih =>
      refine Made.flush.bind fun _ _ => (made_addCondition (j := False) ?_).bind fun _ _ =>
        ih.weaken (fun h => h) (fun _ h => h) fun _ _ => trivial
      have hcall := made_putAttributeCall (w := w) (i := True) [(hybrid.name, .snippet hybrid.code)] id hybrid.arity
      cases opened with
      | none => exact hcall
      | some flag =>
          obtain ⟨name, rfl⟩ := ho flag rfl
          refine made_noteScript.bind fun _ _ => (made_putScriptTag.inFrame false).bind fun tag htag => ?_
          exact (Made.add (allEmitted_cond ((allEmitted_setFlag name).append htag) .nil)).bind fun _ _ => hcall

/-- The frame for the end tag of a script is opened behind a hybrid value, so no markup waits. -/
theorem made_buildPending {pending : Pending} (h : pending.isEmpty = false) (id : ElementId) :
    Made w i (fun _ => buildPending w.settings pending id) (fun _ => True) False := by
  unfold buildPending
  cases hdeferred : pending.deferred.isEmpty with
  | true =>
      have hhybrids : pending.hybrids ≠ [] := by
        rintro hnil
        simp [Pending.isEmpty, hdeferred, hnil] at h
      refine (Made.declare _ _ _).bind fun flag hflag => ?_
      have hcalls : Made w i (fun _ => buildHybridCalls w.settings id (some flag) pending.hybrids)
          (fun _ => True) True :=
        (made_buildHybridCalls id (by rintro _ ⟨⟩; exact hflag) _).weaken (fun h => h) (fun _ h => h)
          fun _ hnil => absurd hnil hhybrids
      exact hcalls.bind fun _ _ => (made_addCondition (.put _)).forget
  | false =>
      exact made_noteScript.bind fun _ _ => made_putScriptTag.bind fun _ _ =>
        (made_putAttributeCall _ id _).bind fun _ _ => (made_buildHybridCalls id (by simp) _).bind fun _ _ => .put _

/-! Elements. -/

theorem made_buildText (kind : TextKind) (value : String) :
    Made w i (fun _ => buildText w.settings value kind) (fun _ => True) False := by
  cases kind with
  | literal =>
      refine Made.get.bind fun d _ => ?_
      cases d.mode with
      | raw => exact .put _
      | preformatted => exact .put _
      | normal => exact .put _
  | unknown => exact (made_ensureExtras true).bind fun _ _ => .put _
  | comment => exact .put _
  | docType => exact .put _
  | codeComment =>
      exact Made.flush.bind fun _ _ => (Made.add (allEmitted_script (by
        simp [Script.AllScript, Stmt.allOf, Stmt.withInner, Script.IsScript]))).forget

section Children

variable {f : Node → Probed Unit}

theorem made_runAll {γ : Type} {xs : List γ} {f : γ → Probed Unit}
    (h : ∀ x ∈ xs, Made w False (f x) (fun _ => True) False) :
    Made w False (fun p => runAll (xs.map (f · p))) (fun _ => True) False := by
  induction xs with
  | nil => exact .done ()
  | cons x rest ih =>
      obtain ⟨hx, hrest⟩ := List.forall_mem_cons.1 h
      exact hx.bind fun _ _ => ih hrest

theorem made_buildChildren {children : List Node} (h : ∀ n ∈ children, Made w False (f n) (fun _ => True) False) :
    Made w False (fun p => buildChildren w.settings (children.zip (children.map (f · p)))) (fun _ => True) False := by
  simp only [buildChildren, zip_map_self, trimEdges_map, List.map_map]
  exact Made.get.bind fun _ _ => .ite (made_runAll fun n hn => h n (trimEdges_subset _ _ hn)) (made_runAll h)

theorem made_endContent : Made w False (fun _ => endContent w.settings e) (fun _ => True) False :=
  Made.get.bind fun _ _ => .ite
    ((made_ensureExtras _).bind fun _ _ => (Made.put _).bind fun _ _ => .put _) (.put _)

theorem made_buildBody (h : ∀ n ∈ e.children, Made w False (f n) (fun _ => True) False) :
    Made w False (fun p => buildBody w.settings e (e.children.map (f · p))) (fun _ => True) False := by
  refine .ite ?_ (.put _)
  simp only [buildContent_eq]
  exact (Made.put _).bind fun _ _ => ((made_buildChildren h).inContent e).bind fun _ _ => made_endContent

theorem made_buildUpTo {attributes : List (String × Option Node)} (h : attributeBlocks attributes ⊆ w.written) :
    Made w False (fun _ => buildUpTo w.settings e attributes) (fun _ => True) False :=
  have hopened : Made w False (fun _ => do put (Markup.openTag e.tag); buildAttributes w.settings e {} attributes)
      (fun _ => True) False := (Made.put _).bind fun _ _ => made_buildAttributes {} h
  .ite (made_noteScript.bind fun _ _ => (made_ensureExtras true).bind fun _ _ => hopened) hopened

theorem made_buildBehind (pending : Pending) (h : ∀ n ∈ e.children, Made w False (f n) (fun _ => True) False) :
    Made w False (fun p => buildBehind w.settings e (e.children.map (f · p)) pending) (fun _ => True) False := by
  unfold buildBehind
  cases hpending : pending.isEmpty with
  | true => exact made_buildBody h
  | false =>
      exact (made_buildElementId pending).bind fun id _ => (made_buildBody h).bind fun _ _ =>
        made_buildPending hpending id

theorem made_buildElement (ha : attributeBlocks e.attributes ⊆ w.written)
    (h : ∀ n ∈ e.children, Made w False (f n) (fun _ => True) False) :
    Made w False (fun p => buildElement w.settings e (e.children.map (f · p))) (fun _ => True) False := by
  simp only [buildElement_eq]
  exact (made_buildUpTo ha).bind fun pending _ => made_buildBehind pending h

/-! Calls and parts. -/

theorem made_buildPart {part : PartOf Node} (h : ∀ n ∈ part.children, Made w False (f n) (fun _ => True) False) :
    Made w i (fun p => buildPart (mapPart (f · p) part)) (fun _ => True) True :=
  .buildPart part.name (fun _ => rfl) (made_runAll h).anywhere.buildRenderMethod

theorem made_buildParts {parts : List (PartOf Node)}
    (h : ∀ part ∈ parts, ∀ n ∈ part.children, Made w False (f n) (fun _ => True) False) :
    Made w i (fun p => buildParts (parts.map (mapPart (f · p)))) (fun _ => True) False := by
  induction parts generalizing i with
  | nil => exact (Made.done _).forget
  | cons part rest ih =>
      obtain ⟨hpart, hrest⟩ := List.forall_mem_cons.1 h
      exact (made_buildPart hpart).bind fun _ _ => (ih hrest).bind fun _ _ => .done _

theorem made_buildPartSlot (part : PartOf Node)
    (h : ∀ n ∈ part.children, Made w False (f n) (fun _ => True) False) :
    Made w i (fun p => buildPartSlot (mapPart (f · p) part)) (fun _ => True) False := by
  have hrender (name : String) : AllEmitted w.settings w.written
      [renderCall "renderPart" (.text part.name :: boundParams.map Param.ref) (.parts [name])] :=
    emitted_renderCall (by decide) _ (by simp)
  refine .ite (c := Text.trim part.name = "") (.throw (blames_template _ _)) ?_
  exact (made_buildPart h).bind fun name _ => (Made.addToInit (allEmitted_call (by decide) _)).bind fun _ _ =>
    Made.flush.bind fun _ _ => (Made.add (hrender name)).forget

/-- The first reason why arguments cannot be evaluated comes from one of them. -/
theorem made_arguments? (args : List (Option CodeBlock × Param)) : Made w i (fun _ => arguments? args)
    (fun r => ∀ err, r = .error err → Blames (args.filterMap (·.1)) err) i := by
  have hmap {r : Except Error (List Expr)} {g : List Expr → List Expr} {err : Error}
      (h : r.map g = .error err) : r = .error err := by
    cases r with
    | error e => exact h
    | ok es => cases h
  induction args with
  | nil => exact .result (fun _ h => by cases h)
  | cons a rest ih =>
      obtain ⟨b, param⟩ := a
      cases b with
      | none => exact ih.bind fun r hr => .result fun err h => hr err (hmap h)
      | some b =>
          refine (Made.fragment? b false).bind fun r hr => ?_
          cases r with
          | error e =>
              refine .result fun err h => ?_
              cases h
              exact hr.mono (by simp)
          | ok f => exact ih.bind fun r hr => .result fun err h => (hr err (hmap h)).mono (by simp)

variable {c : Call}

theorem blames_callArguments (hc : c.blocks ⊆ w.required) {err : Error}
    (h : Blames ((callArguments c).filterMap (·.1)) err) : Blames w.required err := by
  refine h.mono fun b hb => hc (List.mem_append_right _ ?_)
  rwa [filterMap_callArguments] at hb

theorem made_putCalledView (hc : c.blocks ⊆ w.required) :
    Made w i (fun _ => putCalledView w.settings c) (fun _ => True) False := by
  unfold putCalledView
  split
  · exact .put _
  · next b hname hview =>
      have hb : b ∈ c.blocks := by
        rw [CallOf.blocks, CallOf.viewBlock?, hname, hview]
        exact List.mem_cons_self
      exact (Made.put _).bind fun _ _ => (made_requiredExpr (hc hb)).bind fun view _ =>
        Made.flush.bind fun _ _ => (Made.add (allEmitted_writeData view)).bind fun _ _ => .put _
  · exact .throw (blames_template _ _)

theorem made_buildDeferredCall (hc : c.blocks ⊆ w.required) :
    Made w i (fun _ => buildDeferredCall w.settings c) (fun _ => True) False := by
  refine made_openScriptWithId.bind fun id _ => (made_putCalledView hc).bind fun _ _ => (Made.put _).bind fun _ _ =>
    (made_arguments? _).bind fun r hr => ?_
  cases r with
  | error err => exact (Made.throw (Q := fun _ => False) (j := False)
      (blames_callArguments hc (hr err rfl))).bind fun _ h => h.elim
  | ok args =>
      exact (made_putData _).bind fun _ _ => made_putCall.bind fun _ _ => Made.flush.bind fun _ _ =>
        (Made.add (allEmitted_writeData id)).bind fun _ _ => (Made.put _).bind fun _ _ => .put _

theorem made_buildCall (hc : c.blocks ⊆ w.required) (parts : List (PartOf Node))
    (h : ∀ part ∈ parts, ∀ n ∈ part.children, Made w False (f n) (fun _ => True) False) :
    Made w i (fun p => buildCall w.settings c (parts.map (mapPart (f · p)))) (fun _ => True) False := by
  simp only [buildCall_eq]
  refine .ite (made_buildDeferredCall hc) ?_
  cases calledName? c.view with
  | none => exact .throw (blames_template _ _)
  | some name =>
      refine (made_arguments? _).tryArguments.bind fun r _ => ?_
      cases r with
      | error _ => exact made_buildDeferredCall hc
      | ok args =>
          refine Made.newField.bind fun fieldName _ => (made_buildParts h).bind fun classes _ => ?_
          exact (Made.addToInit (allEmitted_setField _ _ _)).bind fun _ _ => Made.flush.bind fun _ _ =>
            (Made.add (emitted_renderCall (by decide) _ (by simp))).forget

end Children

/-! Loops. -/

theorem made_buildCountLoop {render : String} (h : render ≠ "write") (count data : Expr) :
    Made w True (fun _ => buildCountLoop render count data) (fun _ => True) True := by
  refine (Made.freshName _).bind fun _ _ => (Made.freshName _).bind fun _ _ => (Made.freshName _).bind fun _ _ => ?_
  exact (Made.add (allEmitted_var _)).bind fun _ _ => .add (allEmitted_loop (allEmitted_vars _)
    (allEmitted_increment _) (allEmitted_call h _))

theorem made_newCursor (items : Expr) : Made w i (fun _ => newCursor items) (fun _ => True) i :=
  (Made.freshName _).bind fun _ _ => (Made.freshName _).bind fun _ _ => (Made.freshName _).bind fun _ _ =>
    (Made.freshName _).bind fun _ _ => .done _

theorem made_addLoop (c : Cursor) {body : List Stmt} (h : AllEmitted w.settings w.written body) :
    Made w True (fun _ => c.addLoop body) (fun _ => True) True :=
  (Made.add (allEmitted_var _)).bind fun _ _ => (Made.add (allEmitted_vars _)).bind fun _ _ =>
    .add (allEmitted_loop (allEmitted_var _) (allEmitted_increment _) h)

theorem made_buildLoopHead {l : Loop} (hl : l.blocks ⊆ w.required) {render : String} (h : render ≠ "write") :
    Made w True (fun _ => buildLoopHead l render) (fun _ => True) True := by
  unfold LoopOf.blocks at hl
  unfold buildLoopHead
  cases hcount : argumentBlock? l.count with
  | some count =>
      rw [hcount] at hl
      obtain ⟨hc, hd⟩ := List.cons_subset.1 hl
      refine (made_requiredExpr hc).bind fun _ _ => ?_
      cases hdata : argumentBlock? l.data with
      | some data =>
          rw [hdata] at hd
          exact (made_requiredExpr (hd List.mem_cons_self)).bind fun _ _ => made_buildCountLoop h _ _
      | none => exact made_buildCountLoop h _ _
  | none =>
      cases hwithin : argumentBlock? l.within with
      | some source =>
          rw [hcount, hwithin] at hl
          exact (made_requiredExpr (hl List.mem_cons_self)).bind fun _ _ => (made_newCursor _).bind fun c _ =>
            (Made.freshName _).bind fun _ _ => made_addLoop c ((allEmitted_var _).append (allEmitted_call h _))
      | none =>
          cases heach : argumentBlock? l.each with
          | some source =>
              rw [hcount, hwithin, heach] at hl
              exact (made_requiredExpr (hl List.mem_cons_self)).bind fun _ _ => (made_newCursor _).bind fun c _ =>
                made_addLoop c (allEmitted_call h _)
          | none => exact .throw (blames_template _ _)

/-! Nodes. -/

theorem made_runEach {ns : List Node}
    (h : ∀ n ∈ ns, Made w False (fun _ => visit (buildNode w.settings n)) (fun _ => True) False) :
    Made w False (fun _ => runAll (buildEach w.settings ns)) (fun _ => True) False := by
  simp only [buildEach_eq_visit]
  exact made_runAll h

mutual

theorem made_buildNode : ∀ n : Node, n.blocks ⊆ w.written → n.required ⊆ w.required →
    Made w False (fun _ => buildNode w.settings n) (fun _ => True) False
  | .text kind value _, _, _ => made_buildText kind value
  | .code b, hb, _ => made_buildBlock (hb List.mem_cons_self)
  | .element ⟨tag, attributes, children, position⟩, hb, hr => by
      obtain ⟨ha, hb⟩ := List.append_subset.1 hb
      have h := made_buildElement (e := ⟨tag, attributes, children, position⟩) ha (made_visit children hb hr)
      simp only [← buildEach_eq_visit] at h
      exact h
  | .view _, _, _ => .throw (blames_template _ _)
  | .choice ⟨branches, _⟩, hb, hr =>
      Made.flush.bind fun _ _ => Made.get.bind fun _ _ => (made_buildBranches _ branches hb hr).bind fun _ hbuilt =>
        (made_addAll (allEmitted_chain hbuilt)).forget
  | .branch ⟨test, children, _⟩, hb, hr => by
      obtain ⟨ht, hr⟩ := List.append_subset.1 hr
      have hbody := (made_runEach (made_visit children hb hr)).anywhere (i := True)
      refine Made.flush.bind fun _ _ => ?_
      cases test with
      | none => exact (made_addCondition hbody).forget
      | some b =>
          exact (made_requiredExpr (ht List.mem_cons_self)).bind fun _ _ => (made_addCondition hbody).forget
  | .loop ⟨each, within, count, data, children, position⟩, hb, hr => by
      obtain ⟨hl, hr⟩ := List.append_subset.1 hr
      exact .ite (.done _) ((made_runEach (made_visit children hb hr)).anywhere.buildRenderMethod.bind fun _ hrender =>
        (made_buildLoopHead hl hrender).forget)
  | .call ⟨view, data, index, count, key, defer, children, position⟩, hb, hr => by
      obtain ⟨hc, hr⟩ := List.append_subset.1 hr
      have h := made_buildCall (i := False) (f := fun n _ => visit (buildNode w.settings n)) hc
        (Supply.gather position (children.map Node.supply)) fun part hpart n hn => by
          obtain ⟨supply, hsupply, hn⟩ := exists_supplied hpart hn
          exact made_supplied children hb hr supply hsupply n hn
      simp only [← gather_map, ← buildSupplies_eq_visit] at h
      exact h
  | .part ⟨name, children, position⟩, hb, hr => by
      have h := made_buildPartSlot (i := False) ⟨name, children, position⟩ (made_visit children hb hr)
      simp only [mapPart, ← buildEach_eq_visit] at h
      exact h

theorem made_visit : ∀ ns : List Node, Node.blocksOf ns ⊆ w.written → Node.requiredOf ns ⊆ w.required →
    ∀ n ∈ ns, Made w False (fun _ => visit (buildNode w.settings n)) (fun _ => True) False
  | [], _, _ => by simp
  | n :: rest, hb, hr =>
      have ⟨hbfirst, hbrest⟩ := List.append_subset.1 hb
      have ⟨hrfirst, hrrest⟩ := List.append_subset.1 hr
      List.forall_mem_cons.2 ⟨(made_buildNode n hbfirst hrfirst).visit, made_visit rest hbrest hrrest⟩

theorem made_buildBranches : ∀ (inherited : Bool) (branches : List Branch),
    Node.blocksOfBranches branches ⊆ w.written → Node.requiredOfBranches branches ⊆ w.required →
    Made w True (fun _ => buildBranches w.settings inherited branches)
      (fun built => ∀ b ∈ built, AllEmitted w.settings w.written b.body) True
  | _, [], _, _ => .result (by simp)
  | inherited, ⟨test, children, _⟩ :: rest, hb, hr => by
      obtain ⟨hbfirst, hbrest⟩ := List.append_subset.1 hb
      obtain ⟨hr, hrrest⟩ := List.append_subset.1 hr
      obtain ⟨ht, hrfirst⟩ := List.append_subset.1 hr
      have hbody := (made_runEach (made_visit children hbfirst hrfirst)).anywhere (i := True)
      cases test with
      | some test =>
          exact (made_requiredExpr (ht List.mem_cons_self)).bind fun _ _ => (hbody.inFrame false).bind fun _ hfirst =>
            (made_buildBranches false rest hbrest hrrest).bind fun _ hrest =>
              .result (List.forall_mem_cons.2 ⟨hfirst, hrest⟩)
      | none =>
          exact (hbody.inFrame inherited).bind fun _ hfirst =>
            (made_buildBranches inherited rest hbrest hrrest).bind fun _ hrest =>
              .result (List.forall_mem_cons.2 ⟨hfirst, hrest⟩)

theorem made_supplied : ∀ ns : List Node, Node.blocksOf ns ⊆ w.written → Node.requiredOf ns ⊆ w.required →
    ∀ supply ∈ ns.map Node.supply, ∀ n ∈ supplied supply,
      Made w False (fun _ => visit (buildNode w.settings n)) (fun _ => True) False
  | [], _, _ => by simp
  | n :: rest, hb, hr => by
      obtain ⟨hbfirst, hbrest⟩ := List.append_subset.1 hb
      obtain ⟨hrfirst, hrrest⟩ := List.append_subset.1 hr
      refine List.forall_mem_cons.2 ⟨?_, made_supplied rest hbrest hrrest⟩
      cases n with
      | part body => exact made_visit body.children hbfirst hrfirst
      | _ =>
          intro n hn
          rw [List.mem_singleton.1 hn]
          exact (made_buildNode _ hbfirst hrfirst).visit

end

/-- A view is built so, if its blocks are the ones that are known. -/
theorem made_view (s : Settings) (v : View) : Made ⟨s, v.blocks, v.required⟩ False
    (fun _ => buildRenderMethod (runAll (buildEach s v.children))) (fun name => name ≠ "write") True :=
  (made_runEach (made_visit v.children (List.Subset.refl _) (List.Subset.refl _))).anywhere.buildRenderMethod

end TwinView.Server
