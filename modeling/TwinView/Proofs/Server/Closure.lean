import TwinView.Proofs.Server.Growth
import TwinView.Proofs.Server.Loops
import TwinView.Proofs.Server.Nodes
import TwinView.Proofs.Server.Statements

/-!
Every class that is built is closed, as long as no code block of its view declares a name: members are
found under their names, and variables are declared before they are used.
-/

namespace TwinView.Server

open Code

variable {α β : Type} {s : Settings} {scope : Ref → Prop}

/-! Code blocks. -/

section Writing

variable {e : Expr} {origin : Origin} (hp : ∀ p ∈ renderParams, scope (.var p.name))
  (h : e.Resolved scope)

include hp

theorem uses_call {method : String} {args : List Expr} (hm : isInherited method)
    (ha : ∀ e ∈ args, e.Resolved scope) : Uses scope (renderCall method args origin) :=
  uses_renderCall hm (hp _ List.mem_cons_self) ha

include h

theorem uses_write : Uses scope (write e origin) := uses_call hp (by decide) (by simpa using h)

theorem uses_writeData : Uses scope (writeData e) :=
  uses_call hp (by decide) (by simpa [Expr.int, resolved_const] using h)

theorem uses_writeSafe : Uses scope (writeSafe s e origin) := by
  unfold writeSafe
  dsimp only
  split
  · exact uses_write hp h
  · split
    · exact uses_write hp (resolved_const _)
    · exact uses_call hp (by decide) (by simpa using h)

theorem uses_writeValue (b : CodeBlock) : Uses scope (writeValue s b e) := by
  unfold writeValue
  split
  · exact uses_write hp h
  · exact uses_writeSafe hp h

end Writing

theorem adds_addData {e : Expr} (h : e.Resolved scope) : Adds scope (add (writeData e)) :=
  .of_params fun hp => adds_add (uses_writeData hp h)

theorem builds_declareId : Builds scope declareId fun scope' e => e.Resolved scope' := by
  refine .of_params fun hp => builds_declare _ ⟨"id", rfl⟩ ?_
  refine resolved_invokeOn (by decide) resolved_self ?_
  simpa using resolved_params hp .context List.mem_cons_self

theorem adds_putScriptOpen (withId : Bool) : Adds scope (putScriptOpen s withId) := by
  have hid : Adds scope (if withId then put (Markup.openAttribute "id") else pure ()) := by
    split
    · exact adds_put _
    · exact .pure _
  unfold putScriptOpen
  refine (adds_put _).bind fun _ => ?_
  dsimp only
  split
  · exact (adds_put _).bind fun _ => hid
  · exact hid

theorem builds_openScriptWithId :
    Builds scope (openScriptWithId s) fun scope' e => e.Resolved scope' := by
  refine adds_noteScript.bind fun _ => (adds_putScriptOpen true).bind fun _ => ?_
  refine adds_flush.bind fun _ => builds_declareId.bind fun scope' id _ hid => ?_
  refine .of_params fun hp => (adds_add (uses_write hp hid)).bind fun _ => ?_
  refine (adds_put _).bind fun _ => (adds_put _).bind fun _ => ?_
  exact (adds_ensureExtras _).bind fun _ => .pure hid

theorem adds_putData {es : List Expr} (h : ∀ e ∈ es, e.Resolved scope) :
    Adds scope (putData es) := by
  fun_induction putData es with
  | case1 => exact .pure _
  | case2 e => exact adds_flush.bind fun _ => adds_addData (h e List.mem_cons_self)
  | case3 e rest _ ih =>
      refine adds_flush.bind fun _ => (adds_addData (h e List.mem_cons_self)).bind fun _ => ?_
      exact (adds_put _).bind fun _ => ih fun e he => h e (List.mem_cons_of_mem _ he)

theorem resolved_boundParams (hp : ∀ p ∈ renderParams, scope (.var p.name)) :
    ∀ p ∈ boundParams, p.ref.Resolved scope :=
  fun p hb => resolved_variableRef (hp p (List.mem_of_mem_drop hb))

theorem adds_putBound (count : Nat) : Adds scope (putBound count) := by
  refine .of_params fun hp => adds_putData fun e he => ?_
  obtain ⟨p, hb, rfl⟩ := List.mem_map.1 he
  exact resolved_boundParams hp p (List.mem_of_mem_take hb)

theorem adds_buildDeferredBlock (b : CodeBlock) : Adds scope (buildDeferredBlock s b) := by
  refine builds_openScriptWithId.thenAdds fun scope' id _ hid => ?_
  refine (adds_put _).bind fun _ => (adds_putBound _).bind fun _ => adds_putCall.bind fun _ => ?_
  refine adds_flush.bind fun _ => (adds_addData hid).bind fun _ => ?_
  exact (adds_put _).bind fun _ => adds_put _

theorem resolved_isDefined {e : Expr} (h : e.Resolved scope) : (isDefined e).Resolved scope :=
  resolved_operate h (resolved_const _)

theorem resolved_isUndefined {e : Expr} (h : e.Resolved scope) : (isUndefined e).Resolved scope :=
  resolved_operate h (resolved_const _)

theorem builds_fragment? {b : CodeBlock} (hb : hasNoVar b) (canDefer : Bool) :
    Builds scope (fragment? b canDefer) fun scope' r => ∀ f, r = .ok f → f.expr.Resolved scope' :=
  (holds_fragment? hb canDefer).builds.mono fun _ _ ⟨_, _, h⟩ => h

theorem builds_requiredExpr {b : CodeBlock} (hb : hasNoVar b) :
    Builds scope (requiredExpr b) fun scope' e => e.Resolved scope' :=
  (holds_requiredExpr hb).builds.mono fun _ _ ⟨_, _, h⟩ => h

theorem isStem_val : IsStem "val_" := ⟨"val", rfl⟩

theorem adds_buildBlock {b : CodeBlock} (hb : hasNoVar b) : Adds scope (buildBlock s b) := by
  unfold buildBlock
  refine (builds_fragment? (hasNoVar_unwrapMarkup hb) true).thenAdds fun scope' r _ hr => ?_
  cases r with
  | error e => exact adds_buildDeferredBlock _
  | ok f =>
      refine adds_flush.bind fun _ => ?_
      split
      · refine (builds_declare _ isStem_val (hr f rfl)).thenAdds fun scope'' value _ hv => ?_
        refine .of_params fun hp => ((holds_inFrame (adds_buildDeferredBlock _)).places
          fun scope₃ stmts names hle hf => places_add ?_ ?_).adds
        · refine ⟨(resolved_isDefined hv).mono hle, Stmt.allResolved_one.2 ?_, hf.1⟩
          exact (uses_writeValue hp hv b).resolved.mono hle
        · rw [Stmt.allDeclared_cond, (uses_writeValue hp hv b).undeclared]
          exact hf.2
      · exact .of_params fun hp => adds_add (uses_writeValue hp (hr f rfl) b)

/-! Coercions. -/

theorem resolved_helper {result : Ty} {method : String} (hm : isInherited method) {e : Expr}
    (h : e.Resolved scope) : (Expr.invokeHelper result method [e]).Resolved scope := by
  refine resolved_invokeOn hm ?_ (by simpa using h)
  simp [Expr.dataHelper, Expr.Resolved, Expr.Every, Expr.refs]

section Coercion

variable {e : Expr}

theorem resolved_ensureText (h : e.Resolved scope) : e.ensureText.Resolved scope := by
  unfold Expr.ensureText
  split
  · exact h
  · exact resolved_helper (by decide) h

theorem resolved_ensureNumber (h : e.Resolved scope) : e.ensureNumber.Resolved scope := by
  unfold Expr.ensureNumber
  split
  · exact h
  · exact resolved_helper (by decide) h

theorem resolved_ensureCollection (h : e.Resolved scope) : e.ensureCollection.Resolved scope := by
  unfold Expr.ensureCollection
  split
  · exact h
  · exact resolved_helper (by decide) h

theorem resolved_ensureMap (h : e.Resolved scope) : e.ensureMap.Resolved scope := by
  unfold Expr.ensureMap
  split
  · exact h
  · exact resolved_helper (by decide) h

end Coercion

/-! Attributes. -/

theorem adds_putAttribute (name : String) {stmt : Stmt} (h : Uses scope stmt) :
    Adds scope (putAttribute name stmt) :=
  (adds_put _).bind fun _ => adds_flush.bind fun _ => (adds_add h).bind fun _ => adds_put _

def Pending.Resolved (scope : Ref → Prop) (p : Pending) : Prop :=
  ∀ h ∈ p.hybrids, h.value.Resolved scope

variable {scope' : Ref → Prop}

theorem Pending.Resolved.mono {p : Pending} (h : p.Resolved scope) (hle : ∀ r, scope r → scope' r) :
    p.Resolved scope' := fun x hx => (h x hx).mono hle

def attributeHasNoVar (n : Node) : Prop := ∀ b, n = .code b → hasNoVar b

theorem builds_buildFlag {p : Pending} (hp : p.Resolved scope) (name : String) {n : Node}
    (hn : attributeHasNoVar n) :
    Builds scope (buildFlag s p name n) fun scope' p => p.Resolved scope' := by
  unfold buildFlag
  split
  · dsimp only
    split
    · exact (adds_put _).bind fun _ => .pure hp
    · exact .pure hp
  · next b =>
      refine (builds_fragment? (hn b rfl) false).bind fun scope' r hle hr => ?_
      cases r with
      | ok f =>
          refine adds_flush.bind fun _ => (adds_addCondition (hr f rfl) (adds_put _)).bind fun _ => ?_
          exact .pure (hp.mono hle)
      | error e => exact .pure (hp.mono hle)
  · exact .pure hp

theorem resolved_transformedUrl (hp : ∀ p ∈ renderParams, scope (.var p.name)) {e : Expr}
    (h : e.Resolved scope) : (transformedUrl e).Resolved scope := by
  refine resolved_invokeOn (by decide) resolved_self ?_
  simpa using ⟨resolved_params hp .context List.mem_cons_self, resolved_ensureText h⟩

theorem builds_buildLink (e : Element) {p : Pending} (hp : p.Resolved scope) (name : String) {n : Node}
    (hn : attributeHasNoVar n) :
    Builds scope (buildLink s e p name n) fun scope' p => p.Resolved scope' := by
  unfold buildLink
  split
  · refine .of_params fun hparams => (adds_putAttribute name ?_).bind fun _ => .pure hp
    exact uses_writeSafe hparams (resolved_transformedUrl hparams (resolved_const _))
  · next b =>
      refine (builds_fragment? (hasNoVar_unwrapMarkup (hn b rfl)) true).bind fun scope' r hle hr => ?_
      cases r with
      | ok f =>
          refine .of_params fun hparams => (adds_putAttribute name ?_).bind fun _ => .pure (hp.mono hle)
          exact uses_writeValue hparams (resolved_transformedUrl hparams (hr f rfl)) b
      | error e => exact .pure (hp.mono hle)
  · exact .throw

theorem builds_buildPlain (e : Element) {p : Pending} (hp : p.Resolved scope) (name : String)
    {n : Node} (hn : attributeHasNoVar n) :
    Builds scope (buildPlain s e p name n) fun scope' p => p.Resolved scope' := by
  unfold buildPlain
  split
  · exact (adds_put _).bind fun _ => .pure hp
  · next b =>
      refine (builds_fragment? (hasNoVar_unwrapMarkup (hn b rfl)) true).bind fun scope' r hle hr => ?_
      cases r with
      | error e => exact .pure (hp.mono hle)
      | ok f =>
          dsimp only
          split
          · refine adds_flush.bind fun _ => ?_
            refine (builds_declare _ isStem_val (hr f rfl)).bind fun scope'' value hle' hv => ?_
            refine .of_params fun hparams => (adds_addCondition (resolved_isDefined hv)
              (adds_putAttribute name (uses_writeValue hparams hv b))).bind fun _ => .pure ?_
            intro h hmem
            rcases List.mem_append.1 hmem with hmem | hmem
            · exact ((hp.mono hle).mono hle') h hmem
            · rw [List.mem_singleton.1 hmem]
              exact hv
          · refine .of_params fun hparams => (adds_putAttribute name ?_).bind fun _ => .pure (hp.mono hle)
            exact uses_writeValue hparams (hr f rfl) b
  · exact .throw

theorem builds_buildAttributes (e : Element) {p : Pending} (hp : p.Resolved scope)
    {attributes : List (String × Option Node)} (h : ∀ b ∈ attributeBlocks attributes, hasNoVar b) :
    Builds scope (buildAttributes s e p attributes) fun scope' p => p.Resolved scope' := by
  induction attributes generalizing p scope with
  | nil => exact .pure hp
  | cons a rest ih =>
      obtain ⟨name, value⟩ := a
      cases value with
      | none => exact (adds_put _).bind fun _ => ih hp (by simpa [attributeBlocks] using h)
      | some n =>
          have hn : attributeHasNoVar n := by
            rintro b rfl
            exact h b (by simp [attributeBlocks, Node.block?])
          have hrest : ∀ b ∈ attributeBlocks rest, hasNoVar b := by
            intro b hb
            apply h
            rw [attributeBlocks, List.filterMap_cons]
            split
            · exact hb
            · exact List.mem_cons_of_mem _ hb
          unfold buildAttributes
          dsimp only
          split_ifs
          · exact (builds_buildFlag hp name hn).bind fun _ _ _ hp => ih hp hrest
          · exact (builds_buildLink e hp name hn).bind fun _ _ _ hp => ih hp hrest
          · exact (builds_buildPlain e hp name hn).bind fun _ _ _ hp => ih hp hrest

def ElementId.Resolved (scope : Ref → Prop) : ElementId → Prop
  | .declared id => id.Resolved scope
  | .given _ => True

theorem ElementId.Resolved.mono {id : ElementId} (h : id.Resolved scope)
    (hle : ∀ r, scope r → scope' r) : id.Resolved scope' := by
  cases id with
  | declared id => exact Expr.Resolved.mono h hle
  | given => exact h

theorem resolved_someUndefined {hybrids : List Hybrid} {test : Expr}
    (h : ∀ x ∈ hybrids, x.value.Resolved scope) (ht : someUndefined hybrids = some test) :
    test.Resolved scope := by
  cases hybrids with
  | nil => cases ht
  | cons first rest =>
      cases ht
      obtain ⟨hfirst, hrest⟩ := List.forall_mem_cons.1 h
      have hstart := resolved_isUndefined hfirst
      generalize isUndefined first.value = start at hstart
      induction rest generalizing start with
      | nil => exact hstart
      | cons x rest ih =>
          obtain ⟨hx, hrest⟩ := List.forall_mem_cons.1 hrest
          refine ih (List.forall_mem_cons.2 ⟨hfirst, hrest⟩) hrest _ ?_
          exact resolved_operate hstart (resolved_isUndefined hx)

theorem builds_buildElementId (e : Element) {p : Pending} (hp : p.Resolved scope) :
    Builds scope (buildElementId e p) fun scope' id => id.Resolved scope' := by
  unfold buildElementId
  split
  · refine builds_declareId.bind fun scope' id hle hid => ?_
    have hput : Adds scope' (putAttribute "id" (write id)) :=
      .of_params fun hparams => adds_putAttribute _ (uses_write hparams hid)
    dsimp only
    split
    · next test _ htest =>
        refine adds_flush.bind fun _ => (adds_addCondition ?_ hput).bind fun _ => .pure hid
        exact resolved_someUndefined (hp.mono hle) htest
    · exact .pure hid
    · exact hput.bind fun _ => .pure hid
  · exact .pure True.intro
  · exact .throw

theorem adds_putAttributeCall (attributes : List (String × Client.Data)) {id : ElementId}
    (hid : id.Resolved scope) (arity : Nat) : Adds scope (putAttributeCall attributes id arity) := by
  refine (adds_ensureExtras _).bind fun _ => (adds_put _).bind fun _ => ?_
  refine (adds_putBound _).bind fun _ => adds_putCall.bind fun _ => ?_
  cases id with
  | declared id => exact adds_flush.bind fun _ => (adds_addData hid).bind fun _ => adds_put _
  | given id => exact (adds_put _).bind fun _ => adds_put _

theorem adds_putScriptTag : Adds scope (putScriptTag s) :=
  (adds_putScriptOpen _).bind fun _ => adds_put _

/-- Setting the flag and opening a script element, unless that has been done. -/
theorem adds_openOnce {flag : Expr} (hf : flag.Resolved scope) : Adds scope (do
    let tag ← inFrame false (putScriptTag s)
    add (.cond (.apply .not flag) (.expr (.operate .assign flag (.bool true)) :: tag) [])) := by
  refine ((holds_inFrame adds_putScriptTag).places fun scope' tag names hle ht => ?_).adds
  have hset : Uses scope' (.expr (.operate .assign flag (.bool true))) :=
    uses_expr (resolved_operate (hf.mono hle) (resolved_const _))
  refine places_add ⟨resolved_apply (hf.mono hle), ?_, True.intro⟩ ?_
  · exact Stmt.AllResolved.append (Stmt.allResolved_one.2 hset.resolved) ht.1
  · have hsplit := Stmt.allDeclared_append [.expr (.operate .assign flag (.bool true))] tag
    rw [Stmt.allDeclared_cond, ← List.singleton_append, hsplit]
    simpa using ht.2

theorem adds_buildHybridCalls {id : ElementId} (hid : id.Resolved scope) {opened : Option Expr}
    (ho : ∀ flag ∈ opened, flag.Resolved scope) {hybrids : List Hybrid}
    (h : ∀ x ∈ hybrids, x.value.Resolved scope) : Adds scope (buildHybridCalls s id opened hybrids) := by
  induction hybrids with
  | nil => exact .pure _
  | cons x rest ih =>
      obtain ⟨hx, hrest⟩ := List.forall_mem_cons.1 h
      refine adds_flush.bind fun _ => (adds_addCondition (resolved_isUndefined hx) ?_).bind fun _ =>
        ih hrest
      cases opened with
      | some flag =>
          refine adds_noteScript.bind fun _ => ?_
          rw [← bind_assoc]
          exact (adds_openOnce (ho flag rfl)).bind fun _ => adds_putAttributeCall _ hid _
      | none => exact adds_putAttributeCall _ hid _

theorem adds_buildPending {p : Pending} (hp : p.Resolved scope) {id : ElementId}
    (hid : id.Resolved scope) : Adds scope (buildPending s p id) := by
  unfold buildPending
  split
  · refine (builds_declare _ ⟨"hasTags", rfl⟩ (resolved_const _)).thenAdds fun scope' flag hle hf => ?_
    refine (adds_buildHybridCalls (hid.mono hle) ?_ (hp.mono hle)).bind fun _ =>
      adds_addCondition hf (adds_put _)
    rintro _ ⟨⟩
    exact hf
  · refine adds_noteScript.bind fun _ => adds_putScriptTag.bind fun _ => ?_
    refine (adds_putAttributeCall _ hid _).bind fun _ => ?_
    exact (adds_buildHybridCalls hid (by simp) hp).bind fun _ => adds_put _

/-! Loops. -/

def Callable (scope : Ref → Prop) (render : String) : Prop :=
  scope (.method render) ∧ unnumbered render = "render_"

theorem Callable.mono {render : String} (h : Callable scope render)
    (hle : ∀ r, scope r → scope' r) : Callable scope' render := ⟨hle _ h.1, h.2⟩

theorem Callable.resolved {render : String} {args : List Expr} (h : Callable scope render)
    (ha : ∀ e ∈ args, e.Resolved scope) : (Expr.invokeSelf .void render args).Resolved scope := by
  refine ⟨?_, resolved_self, everyOf_iff.2 ha⟩
  have hadd : render ≠ "addPart" := by
    intro he
    have := h.2
    rw [he] at this
    exact absurd this (by decide)
  intro r hr
  have hr : r = .method render := by simpa [Expr.self, Expr.refs, isGenerated, h.2, hadd] using hr
  rw [hr]
  exact h.1

theorem resolved_declared {type : Ty} {name : String} {stmts : List Stmt}
    (h : name ∈ stmts.flatMap Stmt.declared) :
    (Expr.variableRef type name).Resolved (behind scope stmts) :=
  resolved_variableRef (Or.inr ⟨name, h, rfl⟩)

theorem resolved_loop {init step : Stmt} {test : Expr} {body : List Stmt} (hi : init.Resolved scope)
    (ht : test.Resolved (behind scope [init])) (hs : step.Resolved (behind scope [init]))
    (hb : Stmt.AllResolved (behind scope [init]) body) :
    (Stmt.loop (some init) test (some step) body).Resolved scope := ⟨hi, ht, hs, hb⟩

theorem resolved_countLoop {render data index count : String} {dataExpr countExpr : Expr}
    (hp : ∀ p ∈ renderParams, scope (.var p.name)) (hr : Callable scope render)
    (hd : dataExpr.Resolved scope) (hc : countExpr.Resolved scope) :
    Stmt.AllResolved scope (countLoop render { type := .object, name := data, init := some dataExpr }
      { type := .int, name := index, init := some (.int 0) }
      { type := .int, name := count, init := some countExpr }) := by
  refine ⟨?_, Stmt.allResolved_one.2 (resolved_loop ?_ ?_ ?_ (Stmt.allResolved_one.2 ?_))⟩
  · rintro e ⟨⟩
    exact hd
  · simpa [Stmt.Resolved] using ⟨resolved_const _, hc.mono fun _ => Or.inl⟩
  · exact resolved_operate (resolved_declared (by simp [Stmt.declared]))
      (resolved_declared (by simp [Stmt.declared]))
  · exact resolved_apply (resolved_declared (by simp [Stmt.declared]))
  · refine Callable.resolved (hr.mono fun _ hs => Or.inl (Or.inl hs)) ?_
    simp only [List.forall_mem_cons, List.not_mem_nil, false_implies, implies_true, and_true]
    refine ⟨?_, ?_, ?_, ?_, resolved_const _⟩
    · exact resolved_variableRef (Or.inl (Or.inl (hp _ List.mem_cons_self)))
    · exact Expr.Resolved.mono (resolved_declared (by simp [Stmt.declared])) fun _ => Or.inl
    · exact resolved_declared (by simp [Stmt.declared])
    · exact resolved_declared (by simp [Stmt.declared])

theorem resolved_wholeExpr {e : Expr} (h : e.Resolved scope) :
    (if e.resultType = .int then e else .cast .int e.ensureNumber false).Resolved scope := by
  split
  · exact h
  · exact resolved_cast (resolved_ensureNumber h)

theorem adds_buildCountLoop {render : String} (hr : Callable scope render) {count data : Expr}
    (hc : count.Resolved scope) (hd : data.Resolved scope) :
    Adds scope (buildCountLoop render count data) := by
  refine .of_params fun hp => ((holds_freshName ⟨"data", rfl⟩).places fun _ dataName _ _ h₁ => ?_).adds
  obtain ⟨rfl, rfl⟩ := h₁
  refine (holds_freshName ⟨"index", rfl⟩).places fun _ index _ _ h₂ => ?_
  obtain ⟨rfl, rfl⟩ := h₂
  refine (holds_freshName ⟨"count", rfl⟩).places fun _ countName _ _ h₃ => ?_
  obtain ⟨rfl, rfl⟩ := h₃
  have hplaces : Places _ [dataName, index, countName] _ :=
    places_addAll (resolved_countLoop hp hr hd (resolved_wholeExpr hc)) rfl
  simp only [countLoop, addAll, bind_pure_unit] at hplaces
  exact hplaces

theorem holds_newCursor (e : Expr) : Holds scope (newCursor e) fun scope' c names =>
    scope' = scope ∧ ∃ items index count iterator, c = cursorOf items index count iterator e ∧
      names = [items, index, count, iterator] := by
  refine (holds_freshName ⟨"items", rfl⟩).bind fun _ items _ _ h₁ => ?_
  obtain ⟨rfl, rfl⟩ := h₁
  refine (holds_freshName ⟨"index", rfl⟩).bind fun _ index _ _ h₂ => ?_
  obtain ⟨rfl, rfl⟩ := h₂
  refine (holds_freshName ⟨"count", rfl⟩).bind fun _ count _ _ h₃ => ?_
  obtain ⟨rfl, rfl⟩ := h₃
  refine (holds_freshName ⟨"iterator", rfl⟩).bind fun _ iterator _ _ h₄ => ?_
  obtain ⟨rfl, rfl⟩ := h₄
  exact .pure ⟨rfl, items, index, count, iterator, rfl, rfl⟩

/-- What is in scope in the body of a loop over a collection. -/
def cursorScope (scope : Ref → Prop) (c : Cursor) : Ref → Prop :=
  behind scope [.var c.items, .vars [c.index, c.count], .var c.iterator]

theorem resolved_cursorLoop {items index count iterator : String} {e : Expr} {body : List Stmt}
    (h : e.Resolved scope)
    (hb : Stmt.AllResolved (cursorScope scope (cursorOf items index count iterator e)) body) :
    Stmt.AllResolved scope (cursorLoop (cursorOf items index count iterator e) body) := by
  have hscope (c : Cursor) : behind (behind (behind scope [.var c.items]) [.vars [c.index, c.count]])
      [.var c.iterator] = cursorScope scope c := by
    simp [cursorScope, behind_append]
  have hitems (type : Ty) : (Expr.variableRef type items).Resolved
      (behind scope [.var (cursorOf items index count iterator e).items]) :=
    resolved_declared (by simp [cursorOf, Stmt.declared])
  refine ⟨?_, ?_, Stmt.allResolved_one.2 (resolved_loop ?_ ?_ ?_ ?_)⟩
  · rintro e' ⟨⟩
    exact h
  · simpa [cursorOf, Stmt.Resolved] using
      ⟨resolved_const _, resolved_invokeOn (by decide) (hitems _) (by simp)⟩
  · rintro e' ⟨⟩
    exact resolved_invokeOn (by decide) ((hitems _).mono fun _ => Or.inl) (by simp)
  · exact resolved_invokeOn (by decide) (resolved_declared (by simp [cursorOf, Stmt.declared])) (by simp)
  · refine resolved_apply (Expr.Resolved.mono ?_ fun _ => Or.inl)
    exact resolved_declared (by simp [cursorOf, Stmt.declared])
  · rw [hscope]
    exact hb

theorem resolved_renderItem {render items index count iterator : String} {e data key : Expr}
    (hp : ∀ p ∈ renderParams, scope (.var p.name)) (hr : Callable scope render)
    (hindex : scope (.var index)) (hcount : scope (.var count)) (hd : data.Resolved scope)
    (hk : key.Resolved scope) :
    ((cursorOf items index count iterator e).renderItem render data key).Resolved scope := by
  refine Callable.resolved hr ?_
  simp only [List.forall_mem_cons, List.not_mem_nil, false_implies, implies_true, and_true]
  exact ⟨resolved_variableRef (hp _ List.mem_cons_self), hd, resolved_variableRef hindex,
    resolved_variableRef hcount, hk⟩

theorem cursorScope_declared {items index count iterator name : String} {e : Expr}
    (h : name ∈ [items, index, count, iterator]) :
    cursorScope scope (cursorOf items index count iterator e) (.var name) :=
  Or.inr ⟨name, by simpa [cursorOf, Stmt.declared] using h, rfl⟩

theorem resolved_next {items index count iterator : String} {e : Expr} (h : scope (.var iterator)) :
    (cursorOf items index count iterator e).next.Resolved scope :=
  resolved_invokeOn (by decide) (resolved_variableRef h) (by simp)

theorem allDeclared_cursorLoop (items index count iterator : String) (e : Expr) (body : List Stmt) :
    Stmt.allDeclared (cursorLoop (cursorOf items index count iterator e) body) =
      [items, index, count, iterator] ++ Stmt.allDeclared body := by
  simp [cursorLoop, cursorOf, Stmt.allDeclared, Stmt.allOf, Stmt.withInner, Stmt.allOfOption,
    Stmt.declared]

theorem adds_buildListLoop {render : String} (hr : Callable scope render) {source : Expr}
    (h : source.Resolved scope) : Adds scope (buildListLoop render source) := by
  refine .of_params fun hp => ((holds_newCursor _).places fun _ c _ _ hc => ?_).adds
  obtain ⟨rfl, items, index, count, iterator, rfl, rfl⟩ := hc
  rw [addLoop_eq]
  refine places_addAll (resolved_cursorLoop (resolved_ensureCollection h)
    (Stmt.allResolved_one.2 (resolved_renderItem ?_ ?_ ?_ ?_ ?_ (resolved_const _)))) ?_
  · exact fun p h => Or.inl (hp p h)
  · exact hr.mono fun _ => Or.inl
  · exact cursorScope_declared (by simp)
  · exact cursorScope_declared (by simp)
  · exact resolved_next (cursorScope_declared (by simp))
  · rw [allDeclared_cursorLoop]
    exact congrArg _ (Stmt.allDeclared_expr _ _)

theorem adds_buildMapLoop {render : String} (hr : Callable scope render) {source : Expr}
    (h : source.Resolved scope) : Adds scope (buildMapLoop render source) := by
  refine .of_params fun hp => ((holds_newCursor _).places fun _ c _ _ hc => ?_).adds
  obtain ⟨rfl, items, index, count, iterator, rfl, rfl⟩ := hc
  refine (holds_freshName ⟨"entry", rfl⟩).places fun _ entry _ _ hentry => ?_
  obtain ⟨rfl, rfl⟩ := hentry
  rw [addLoop_eq]
  have hmap : (Expr.invokeOn .collection source.ensureMap "entrySet" []).Resolved _ :=
    resolved_invokeOn (by decide) (resolved_ensureMap h) (by simp)
  refine places_addAll (resolved_cursorLoop hmap ⟨?_, Stmt.allResolved_one.2
    (resolved_renderItem ?_ ?_ ?_ ?_ ?_ ?_)⟩) ?_
  · rintro e ⟨⟩
    exact resolved_cast (resolved_next (cursorScope_declared (by simp)))
  · exact fun p h => Or.inl (Or.inl (hp p h))
  · exact hr.mono fun _ hs => Or.inl (Or.inl hs)
  · exact Or.inl (cursorScope_declared (by simp))
  · exact Or.inl (cursorScope_declared (by simp))
  · exact resolved_invokeOn (by decide) (resolved_declared (by simp [Stmt.declared])) (by simp)
  · exact resolved_ensureText
      (resolved_invokeOn (by decide) (resolved_declared (by simp [Stmt.declared])) (by simp))
  · rw [allDeclared_cursorLoop]
    exact congrArg _ (allDeclared_var _)

def argumentBlocks (args : List (Option Node)) : List CodeBlock := args.filterMap argumentBlock?

theorem adds_buildLoopHead {l : Loop}
    (h : ∀ b ∈ argumentBlocks [l.each, l.within, l.count, l.data], hasNoVar b) {render : String}
    (hr : Callable scope render) : Adds scope (buildLoopHead l render) := by
  have hnovar {n : Option Node} (hn : n ∈ [l.each, l.within, l.count, l.data]) {b : CodeBlock}
      (hb : argumentBlock? n = some b) : hasNoVar b := h b (List.mem_filterMap.2 ⟨n, hn, hb⟩)
  unfold buildLoopHead
  split
  · next hcount =>
      refine (builds_requiredExpr (hnovar (by simp) hcount)).thenAdds fun scope' e hle he => ?_
      dsimp only
      split
      · next hdata =>
          refine (builds_requiredExpr (hnovar (by simp) hdata)).thenAdds fun scope'' e' hle' he' => ?_
          exact adds_buildCountLoop ((hr.mono hle).mono hle') (he.mono hle') he'
      · refine .of_params fun hp => adds_buildCountLoop (hr.mono hle) he ?_
        exact resolved_boundParams hp _ List.mem_cons_self
  · next hsource =>
      refine (builds_requiredExpr (hnovar (by simp) hsource)).thenAdds fun scope' e hle he => ?_
      exact adds_buildMapLoop (hr.mono hle) he
  · next hsource =>
      refine (builds_requiredExpr (hnovar (by simp) hsource)).thenAdds fun scope' e hle he => ?_
      exact adds_buildListLoop (hr.mono hle) he
  · exact .throw

/-! Calls and parts. -/

theorem resolved_map_cons {e : Expr} {r : Except Error (List Expr)} (he : e.Resolved scope)
    (hr : ∀ es, r = .ok es → ∀ e ∈ es, e.Resolved scope) :
    ∀ es, r.map (e :: ·) = .ok es → ∀ e ∈ es, e.Resolved scope := by
  intro es hes
  cases r with
  | error => cases hes
  | ok rest =>
      cases hes
      exact List.forall_mem_cons.2 ⟨he, hr rest rfl⟩

theorem builds_arguments? {args : List (Option CodeBlock × Param)}
    (hb : ∀ a ∈ args, ∀ b, a.1 = some b → hasNoVar b) (hp : ∀ a ∈ args, a.2 ∈ boundParams) :
    Builds scope (arguments? args) fun scope' r =>
      ∀ es, r = .ok es → ∀ e ∈ es, e.Resolved scope' := by
  induction args generalizing scope with
  | nil =>
      refine .pure ?_
      rintro es ⟨⟩
      simp
  | cons a rest ih =>
      obtain ⟨hbfirst, hbrest⟩ := List.forall_mem_cons.1 hb
      obtain ⟨hpfirst, hprest⟩ := List.forall_mem_cons.1 hp
      obtain ⟨b, param⟩ := a
      cases b with
      | none =>
          refine (ih hbrest hprest).bind fun scope' r _ hr => ?_
          refine .of_params fun hparams => .pure ?_
          exact resolved_map_cons (resolved_boundParams hparams param hpfirst) hr
      | some b =>
          refine (builds_fragment? (hbfirst b rfl) false).bind fun scope' r _ hf => ?_
          cases r with
          | error e => exact .pure (by simp)
          | ok f =>
              refine (ih hbrest hprest).bind fun scope'' r hle hr => .pure ?_
              exact resolved_map_cons ((hf f rfl).mono hle) hr

/-- The blocks of a call: what names the called view, and the arguments. -/
def callBlocks (c : Call) : List CodeBlock :=
  (c.view.bind Node.block?).toList ++ argumentBlocks [c.data, c.index, c.count, c.key]

theorem builds_callArguments {c : Call} (h : ∀ b ∈ callBlocks c, hasNoVar b) :
    Builds scope (arguments? (callArguments c)) fun scope' r =>
      ∀ es, r = .ok es → ∀ e ∈ es, e.Resolved scope' := by
  refine builds_arguments? ?_ fun a ha => (List.of_mem_zip ha).2
  intro a ha b hb
  obtain ⟨n, hn, he⟩ := List.mem_map.1 (List.of_mem_zip ha).1
  exact h b (List.mem_append_right _ (List.mem_filterMap.2 ⟨n, hn, he.trans hb⟩))

theorem adds_putCalledView {c : Call} (h : ∀ b ∈ callBlocks c, hasNoVar b) :
    Adds scope (putCalledView s c) := by
  unfold putCalledView
  split
  · exact adds_put _
  · next b _ hview =>
      refine (adds_put _).bind fun _ => ?_
      have hb : hasNoVar b := h b (by simp [callBlocks, hview, Node.block?])
      refine (builds_requiredExpr hb).thenAdds fun scope' view _ hv => ?_
      exact adds_flush.bind fun _ => (adds_addData hv).bind fun _ => adds_put _
  · exact .throw

theorem adds_buildDeferredCall {c : Call} (h : ∀ b ∈ callBlocks c, hasNoVar b) :
    Adds scope (buildDeferredCall s c) := by
  refine builds_openScriptWithId.thenAdds fun scope' id _ hid => ?_
  refine (adds_putCalledView h).bind fun _ => (adds_put _).bind fun _ => ?_
  refine (builds_callArguments h).thenAdds fun scope'' r hle hr => ?_
  cases r with
  | error e => exact Builds.bind (Q := fun _ _ => False) .throw fun _ _ _ h => h.elim
  | ok args =>
      refine (adds_putData (hr args rfl)).bind fun _ => adds_putCall.bind fun _ => ?_
      refine adds_flush.bind fun _ => (adds_addData (hid.mono hle)).bind fun _ => ?_
      exact (adds_put _).bind fun _ => adds_put _

theorem adds_runAll {xs : List (Build Unit)} (h : ∀ x ∈ xs, Adds scope x) : Adds scope (runAll xs) := by
  induction xs with
  | nil => exact .pure _
  | cons x rest ih =>
      obtain ⟨hx, hrest⟩ := List.forall_mem_cons.1 h
      exact hx.bind fun _ => ih hrest

theorem builds_buildParts {parts : List (PartOf (Build Unit))}
    (h : ∀ p ∈ parts, ∀ x ∈ p.children, Adds paramRefs x) :
    Builds scope (buildParts parts) fun scope' names => ∀ name ∈ names, scope' (.part name) := by
  induction parts generalizing scope with
  | nil => exact .pure (by simp)
  | cons p rest ih =>
      obtain ⟨hp, hrest⟩ := List.forall_mem_cons.1 h
      refine (builds_buildPart (adds_runAll hp)).bind fun scope' name _ hname => ?_
      refine (ih hrest).bind fun scope'' names hle hnames => .pure ?_
      exact List.forall_mem_cons.2 ⟨hle _ hname, hnames⟩

theorem constructed_construct (names : List String) : constructed (names.map construct) = names := by
  induction names with
  | nil => rfl
  | cons name rest ih => simpa [constructed, construct] using ih

theorem resolved_construct (name : String) : (construct name).Resolved scope := by
  simp [construct, Expr.Resolved, Expr.Every, Expr.EveryOf, Expr.refs, constructed]

theorem resolved_createView {view : String} {names : List String}
    (h : ∀ name ∈ names, scope (.part name)) :
    (Expr.create view (names.map construct) false).Resolved scope := by
  refine ⟨?_, everyOf_iff.2 ?_⟩
  · simpa [Expr.refs, constructed_construct] using h
  · intro e he
    obtain ⟨name, -, rfl⟩ := List.mem_map.1 he
    exact resolved_construct name

theorem resolved_addPart {name : String} (h : scope (.part name)) :
    (Expr.invokeSelf .void "addPart" [construct name]).Resolved scope := by
  refine ⟨?_, resolved_self, everyOf_iff.2 ?_⟩
  · have hgenerated : isGenerated "addPart" = false := by decide
    simpa [Expr.self, Expr.refs, hgenerated, constructed, construct] using h
  · intro e he
    rw [List.mem_singleton.1 he]
    exact resolved_construct name

theorem resolved_field {name : String} {type : Ty} (h : scope (.field name)) :
    (Expr.field .self name type false).Resolved scope :=
  ⟨by simpa [Expr.self, Expr.refs] using h, resolved_self⟩

def viewField (name : String) : Member := .field { access := .classOnly, type := .view, name }

theorem settled_viewField (n : Names) : (n.fresh "view_").1 ∉ unsettled := by
  have hu : unnumbered (n.fresh "view_").1 = "view_" := unnumbered_append isStem_view _
  apply settled_of_unnumbered
  · rw [hu]
    decide
  · rw [hu]
    decide

theorem builds_newField : Builds scope (do
    let name ← freshName "view_"
    addMember (viewField name)
    return name) fun scope' name => scope' (.field name) := by
  refine .of_grows fun d name d' hr hx => ?_
  simp only [runs_bind, runs_freshName, addMember, runs_modify, runs_pure] at hx
  obtain ⟨_, _, ⟨rfl, rfl⟩, _, _, rfl, rfl, rfl⟩ := hx
  have hext := Extends.addFresh hr.toTidy isStem_view (m := viewField _) rfl
  have hmem : viewField (d.names.fresh "view_").1 ∈
      (d.target.add (viewField (d.names.fresh "view_").1)).members :=
    List.mem_append_right _ (List.mem_singleton.2 rfl)
  refine ⟨[], ⟨hext, ?_, True.intro, newNames_nil _ _⟩,
    Or.inl (Or.inr ⟨settled_viewField _, _, hmem, rfl⟩)⟩
  refine hr.toCoherent.extends hext hr.locals fun m hm => ?_
  rcases List.mem_append.1 hm with hm | hm
  · exact Or.inl hm
  · rw [List.mem_singleton.1 hm]
    exact Or.inr True.intro

/-- The field of a called view is set up with the view's parts. -/
theorem uses_setField {field view : String} {classes : List String} (hf : scope (.field field))
    (hc : ∀ name ∈ classes, scope (.part name)) :
    Uses (fun r => scope r ∧ r.isVar = false) (.expr (.operate .assign (.field .self field .view false)
      (.create view (classes.map construct) false))) :=
  uses_expr (resolved_operate (resolved_field ⟨hf, rfl⟩)
    (resolved_createView fun name hn => ⟨hc name hn, rfl⟩))

theorem adds_renderView {view : String} {parts : List (PartOf (Build Unit))}
    (h : ∀ p ∈ parts, ∀ x ∈ p.children, Adds paramRefs x) {args : List Expr}
    (ha : ∀ e ∈ args, e.Resolved scope) : Adds scope (do
      let fieldName ← freshName "view_"
      addMember (viewField fieldName)
      let classes ← buildParts parts
      addToInit (.expr (.operate .assign (.field .self fieldName .view false)
        (.create view (classes.map construct) false)))
      flush
      add (renderCall "renderView" (.field .self fieldName .view false :: args) (.parts classes))) := by
  have hbuild : Adds scope ((do
      let fieldName ← freshName "view_"
      addMember (viewField fieldName)
      return fieldName) >>= fun fieldName => do
        let classes ← buildParts parts
        addToInit (.expr (.operate .assign (.field .self fieldName .view false)
          (.create view (classes.map construct) false)))
        flush
        add (renderCall "renderView" (.field .self fieldName .view false :: args) (.parts classes))) := by
    refine builds_newField.thenAdds fun scope₁ fieldName hle₁ hfield => ?_
    refine (builds_buildParts h).thenAdds fun scope₂ classes hle₂ hclasses => ?_
    refine (adds_addToInit (uses_setField (hle₂ _ hfield) hclasses)).bind fun _ => ?_
    refine adds_flush.bind fun _ => .of_params fun hp => adds_add (uses_call hp (by decide) ?_)
    refine List.forall_mem_cons.2 ⟨resolved_field (hle₂ _ hfield), fun e he => ?_⟩
    exact ((ha e he).mono hle₁).mono hle₂
  simpa only [bind_assoc, pure_bind] using hbuild

theorem adds_buildCall {c : Call} (hc : ∀ b ∈ callBlocks c, hasNoVar b)
    {parts : List (PartOf (Build Unit))} (h : ∀ p ∈ parts, ∀ x ∈ p.children, Adds paramRefs x) :
    Adds scope (buildCall s c parts) := by
  unfold buildCall
  split
  · exact adds_buildDeferredCall hc
  · split
    · exact .throw
    · next view _ =>
        refine .of_grows fun d u d' hr hx => ?_
        simp only [runs_bind, runs_get] at hx
        obtain ⟨_, _, ⟨rfl, rfl⟩, r, e, hargs, hx⟩ := hx
        obtain ⟨new, scope', hg, hle, hreach, hq⟩ := builds_callArguments hc _ _ _ hr hargs
        cases r with
        | error fault =>
            -- the members for the arguments are taken back, their names are not
            obtain ⟨names, ms, rfl, hnames, hrenamed⟩ := runs_arguments? hr.toTidy hargs
            simp only [runs_bind, runs_modify, take_withMembers] at hx
            obtain ⟨_, _, rfl, hx⟩ := hx
            have hext := extends_names hr.toTidy hnames hrenamed
            have hgrows : Grows scope _ [] _ := ⟨hext,
              hr.toCoherent.extends hext hg.coherent.locals fun _ => Or.inl, True.intro,
              newNames_nil _ _⟩
            have hready := hgrows.ready hr (fun _ hs => hs) fun r hs => Or.inl (Or.inl hs)
            obtain ⟨new', _, hg', -⟩ := adds_buildDeferredCall hc _ _ _ hready hx
            exact ⟨_, hgrows.trans hg' fun r hs => Or.inl (Or.inl hs)⟩
        | ok args =>
            obtain ⟨new', _, hg', -⟩ :=
              adds_renderView h (hq args rfl) _ _ _ (hg.ready hr hle hreach) hx
            exact ⟨_, hg.trans hg' hreach⟩

theorem adds_buildPartSlot {p : PartOf (Build Unit)} (h : ∀ x ∈ p.children, Adds paramRefs x) :
    Adds scope (buildPartSlot p) := by
  unfold buildPartSlot
  split
  · exact .throw
  · refine (builds_buildPart (adds_runAll h)).thenAdds fun scope' name _ hname => ?_
    refine (adds_addToInit (uses_expr (resolved_addPart ⟨hname, rfl⟩))).bind fun _ => ?_
    refine adds_flush.bind fun _ => .of_params fun hp => adds_add (uses_call hp (by decide) ?_)
    refine List.forall_mem_cons.2 ⟨resolved_const _, fun e he => ?_⟩
    obtain ⟨p, hb, rfl⟩ := List.mem_map.1 he
    exact resolved_boundParams hp p hb

/-! Elements. -/

theorem adds_buildText (value : String) (kind : TextKind) : Adds scope (buildText s value kind) := by
  cases kind with
  | literal =>
      refine adds_get.bind fun d => ?_
      split
      · exact adds_put _
      · exact adds_put _
      · exact adds_put _
  | unknown => exact (adds_ensureExtras _).bind fun _ => adds_put _
  | comment | docType => exact adds_put _
  | codeComment =>
      refine adds_flush.bind fun _ => adds_add ⟨True.intro, ?_⟩
      simp [Stmt.allDeclared, Stmt.allOf, Stmt.withInner, Stmt.declared]

theorem adds_buildChildren {children : List (Node × Build Unit)} (h : ∀ c ∈ children, Adds scope c.2) :
    Adds scope (buildChildren s children) := by
  refine adds_get.bind fun d => ?_
  split
  · refine adds_runAll fun x hx => ?_
    obtain ⟨c, hc, rfl⟩ := List.mem_map.1 hx
    exact h c (trimEdges_subset _ _ hc)
  · refine adds_runAll fun x hx => ?_
    obtain ⟨c, hc, rfl⟩ := List.mem_map.1 hx
    exact h c hc

theorem adds_buildContent (e : Element) {children : List (Build Unit)}
    (hc : ∀ x ∈ children, Adds scope x) : Adds scope (buildContent s e children) := by
  refine (adds_put _).bind fun _ => adds_get.bind fun d => (adds_setMode _).bind fun _ => ?_
  refine (adds_buildChildren fun c h => hc c.2 (List.of_mem_zip h).2).bind fun _ => ?_
  refine (adds_setMode _).bind fun _ => adds_get.bind fun d' => ?_
  dsimp only
  split
  · exact (adds_ensureExtras _).bind fun _ => (adds_put _).bind fun _ => adds_put _
  · exact adds_put _

theorem adds_buildTagged {e : Element} {children : List (Build Unit)}
    (ha : ∀ b ∈ attributeBlocks e.attributes, hasNoVar b)
    (hc : ∀ scope, ∀ x ∈ children, Adds scope x) : Adds scope (buildTagged s e children) := by
  have hbody (scope : Ref → Prop) : Adds scope (if e.canHaveChildren then buildContent s e children
      else put (if s.xhtmlStyle then Markup.closeVoidTag else Markup.closeTag)) := by
    split
    · exact adds_buildContent e (hc scope)
    · exact adds_put _
  refine (adds_put _).bind fun _ => ?_
  refine (builds_buildAttributes e (by simp [Pending.Resolved]) ha).thenAdds fun scope' p _ hp => ?_
  dsimp only
  split
  · exact hbody scope'
  · refine (builds_buildElementId e hp).thenAdds fun scope'' id hle hid => ?_
    exact (hbody scope'').bind fun _ => adds_buildPending (hp.mono hle) hid

theorem adds_buildElement {e : Element} {children : List (Build Unit)}
    (ha : ∀ b ∈ attributeBlocks e.attributes, hasNoVar b)
    (hc : ∀ scope, ∀ x ∈ children, Adds scope x) : Adds scope (buildElement s e children) := by
  unfold buildElement
  dsimp only
  split
  · exact adds_noteScript.bind fun _ => (adds_ensureExtras _).bind fun _ => adds_buildTagged ha hc
  · exact adds_buildTagged ha hc

/-! Nodes. -/

mutual

/-- The code of a node: the blocks among its children and attributes, and what tests, arguments and
called views are given by. A view that stands in a view is refused, whatever it holds. -/
def fragments : Node → List CodeBlock
  | .text _ _ _ => []
  | .code b => [b]
  | .element ⟨_, attributes, children, _⟩ => attributeBlocks attributes ++ fragmentsOf children
  | .view _ => []
  | .choice ⟨branches, _⟩ => fragmentsOfBranches branches
  | .branch ⟨test, children, _⟩ => test.toList ++ fragmentsOf children
  | .loop ⟨each, within, count, data, children, _⟩ =>
    argumentBlocks [each, within, count, data] ++ fragmentsOf children
  | .call ⟨view, data, index, count, key, defer, children, position⟩ =>
    callBlocks ⟨view, data, index, count, key, defer, children, position⟩ ++ fragmentsOf children
  | .part ⟨_, children, _⟩ => fragmentsOf children

def fragmentsOf : List Node → List CodeBlock
  | [] => []
  | n :: rest => fragments n ++ fragmentsOf rest

def fragmentsOfBranches : List Branch → List CodeBlock
  | [] => []
  | ⟨test, children, _⟩ :: rest => test.toList ++ fragmentsOf children ++ fragmentsOfBranches rest

end

abbrev Undeclaring (blocks : List CodeBlock) : Prop := ∀ b ∈ blocks, hasNoVar b

mutual

theorem adds_buildNode :
    ∀ (n : Node) (scope : Ref → Prop), Undeclaring (fragments n) → Adds scope (buildNode s n)
  | .text kind value _, _, _ => adds_buildText value kind
  | .code b, _, h => adds_buildBlock (h b List.mem_cons_self)
  | .element ⟨tag, attributes, children, position⟩, _, h => by
      obtain ⟨ha, hc⟩ := List.forall_mem_append.1 h
      exact adds_buildElement ha fun scope => adds_buildEach children scope hc
  | .view v, _, _ => .throw
  | .choice ⟨branches, _⟩, scope, h => by
      refine adds_flush.bind fun _ => adds_get.bind fun d => ?_
      refine ((holds_buildBranches branches scope _ h).places fun _ built names _ hb => ?_).adds
      exact places_addAll hb.1 hb.2
  | .branch ⟨test, children, _⟩, scope, h => by
      obtain ⟨ht, hc⟩ := List.forall_mem_append.1 h
      refine adds_flush.bind fun _ => ?_
      cases test with
      | none =>
          exact adds_addCondition (resolved_const _) (adds_runAll (adds_buildEach children scope hc))
      | some b =>
          refine (builds_requiredExpr (ht b List.mem_cons_self)).thenAdds fun scope' test _ htest => ?_
          exact adds_addCondition htest (adds_runAll (adds_buildEach children scope' hc))
  | .loop ⟨each, within, count, data, children, position⟩, scope, h => by
      obtain ⟨ha, hc⟩ := List.forall_mem_append.1 h
      unfold buildNode
      split
      · exact .pure _
      · refine (builds_buildRenderMethod (adds_runAll (adds_buildEach children _ hc))).thenAdds ?_
        exact fun scope' render _ hrender => adds_buildLoopHead ha hrender
  | .call ⟨view, data, index, count, key, defer, children, position⟩, scope, h => by
      obtain ⟨hcall, hc⟩ := List.forall_mem_append.1 h
      refine adds_buildCall hcall fun p hp x hx => ?_
      obtain ⟨supply, hs, hx⟩ := exists_supplied hp hx
      exact adds_buildSupplies children _ hc supply hs x hx
  | .part ⟨name, children, position⟩, scope, h => adds_buildPartSlot (adds_buildEach children _ h)

theorem adds_buildEach :
    ∀ (ns : List Node) (scope : Ref → Prop), Undeclaring (fragmentsOf ns) →
      ∀ x ∈ buildEach s ns, Adds scope x
  | [], _, _ => by simp [buildEach]
  | n :: rest, scope, h => by
      obtain ⟨hn, hrest⟩ := List.forall_mem_append.1 h
      exact List.forall_mem_cons.2 ⟨adds_buildNode n scope hn, adds_buildEach rest scope hrest⟩

/-- The chain of branches that are built is held until it is added. -/
theorem holds_buildBranches :
    ∀ (branches : List Branch) (scope : Ref → Prop) (inherited : Bool),
      Undeclaring (fragmentsOfBranches branches) →
      Holds scope (buildBranches s inherited branches) fun scope' built names =>
        Stmt.AllResolved scope' (chain built) ∧ Stmt.allDeclared (chain built) = names
  | [], _, _, _ => .pure ⟨True.intro, rfl⟩
  | ⟨test, children, _⟩ :: rest, scope, inherited, h => by
      obtain ⟨hfirst, hrest⟩ := List.forall_mem_append.1 h
      obtain ⟨ht, hc⟩ := List.forall_mem_append.1 hfirst
      have hbody (scope : Ref → Prop) : Adds scope (runAll (buildEach s children)) :=
        adds_runAll (adds_buildEach children scope hc)
      cases test with
      | some b =>
          refine (holds_requiredExpr (ht b List.mem_cons_self)).bind fun scope₁ test names₁ _ h₁ => ?_
          obtain ⟨rfl, htest⟩ := h₁
          refine (holds_inFrame (hbody scope₁)).bind fun scope₂ body names₂ hle₂ h₂ => ?_
          refine (holds_buildBranches rest scope₂ false hrest).bind fun scope₃ built names₃ hle₃ h₃ => ?_
          refine .pure ⟨Stmt.allResolved_one.2 ⟨?_, h₂.1.mono hle₃, h₃.1⟩, ?_⟩
          · exact (htest.mono hle₂).mono hle₃
          · simp [chain, h₂.2, h₃.2]
      | none =>
          refine (holds_inFrame (hbody scope)).bind fun scope₂ body names₂ _ h₂ => ?_
          refine (holds_buildBranches rest scope₂ inherited hrest).bind
            fun scope₃ built names₃ hle₃ h₃ => ?_
          refine .pure ⟨Stmt.AllResolved.append (h₂.1.mono hle₃) h₃.1, ?_⟩
          simp [chain, h₂.2, h₃.2]

theorem adds_buildSupplies :
    ∀ (ns : List Node) (scope : Ref → Prop), Undeclaring (fragmentsOf ns) →
      ∀ supply ∈ buildSupplies s ns, ∀ x ∈ supplied supply, Adds scope x
  | [], _, _ => by simp [buildSupplies]
  | n :: rest, scope, h => by
      obtain ⟨hn, hrest⟩ := List.forall_mem_append.1 h
      have hothers := adds_buildSupplies rest scope hrest
      have hloose : ∀ x ∈ supplied (.loose n.isSpace (visit (buildNode s n))), Adds scope x := by
        intro x hx
        rw [List.mem_singleton.1 hx, visit_eq]
        exact adds_buildNode n scope hn
      cases n with
      | part body =>
          obtain ⟨name, children, position⟩ := body
          refine List.forall_mem_cons.2 ⟨?_, hothers⟩
          exact adds_buildEach children scope hn
      | _ => exact List.forall_mem_cons.2 ⟨hloose, hothers⟩

end

theorem coherent_view (package : Option String) (name : String) :
    Coherent { target := viewClass package name } where
  toTidy := tidy_view package name
  locals := rfl
  closed := by
    simp only [viewClass, List.forall_mem_cons, List.not_mem_nil, false_implies, implies_true, and_true]
    exact ⟨True.intro, True.intro⟩

/-- If no code of a view declares a name, the class of the view is closed: in it and in every class
nested in it, members have names of their own; the generated methods that are called, the fields that
are read and the parts that are constructed are members, the methods with the parameters of rendering;
and variables are parameters or declared before they are used, under names that are declared once. -/
theorem closed_buildView {v : View} {c : ClassDecl} (hv : ∀ b ∈ fragmentsOf v.children, hasNoVar b)
    (h : buildView s v = .ok c) : c.Closed := by
  obtain ⟨package, name, d', hrun, rfl⟩ := runs_buildView h
  obtain ⟨render, e, hrender, hpromote⟩ := runs_bind.1 hrun
  obtain rfl := runs_promote.1 hpromote
  exact closed_promoted (coherent_view package name) rfl
    (adds_runAll (adds_buildEach v.children paramRefs hv)) hrender

/-- A loop with a title that the client may have to finish and a call that is given a part, and a slot
with a script in it. -/
def titledParts : View where
  name := "V"
  children := [
    .loop {
      each := some (.code { kind := .expression, value := "data" })
      children := [
        .element {
          tag := "a"
          attributes := [("title", some (.code { kind := .expression, value := "t" }))] },
        .call {
          view := some (.text .literal "W" none)
          children := [
            .part { name := "p", children := [.code { kind := .statement, value := "1;" }] }] }] },
    .part { name := "slot", children := [.code { kind := .expression, value := "f()" }] }]

theorem closed_buildView_titledParts :
    ∃ c, buildView {} titledParts = .ok c ∧ (∀ b ∈ fragmentsOf titledParts.children, hasNoVar b) ∧
      c.Closed := by
  have hok : (buildView {} titledParts).isOk := by decide +kernel
  have hv : ∀ b ∈ fragmentsOf titledParts.children, hasNoVar b := by decide +kernel
  obtain ⟨c, h⟩ := exists_ok hok
  exact ⟨c, h, hv, closed_buildView hv h⟩

end TwinView.Server
