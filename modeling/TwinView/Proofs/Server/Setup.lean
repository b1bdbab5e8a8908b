import TwinView.Proofs.Server.Nodes
import TwinView.Proofs.Server.Scripts

/-!
When a view sets up the client in time: exactly if no call is watched without a setup on the way through
its template. Where it does not, a setup stands in the body of a loop or part that may never run, and
the script behind it goes without one.
-/

namespace TwinView.Server

open Code

variable {α β : Type} {known known' : List Member} {steady : Bool} {d d' : Draft} {s : Settings}
  {w : Watch} {S T : Summary} {i j k : Prop}

-- comparing two ways to write a result must not run the compiler
attribute [local irreducible] Script.compile

/-! Text and elements. -/

theorem quiet_buildLiteral (value : String) :
    Quiet known steady i (buildLiteral s value) i fun _ _ => True := by
  refine quiet_get fun d => ?_
  split <;> exact quiet_put _

theorem follows_buildText (kind : TextKind) (value : String) :
    Does known steady False (buildText s value kind) (watchText steady kind) False := by
  cases kind with
  | literal => exact quiet_buildLiteral value
  | unknown => exact Does.andQuiet (follows_ensureExtras true) fun _ _ => quiet_put _
  | comment => exact quiet_put _
  | docType => exact quiet_put _
  | codeComment =>
      refine quiet_flush.bind fun _ _ _ _ => ?_
      exact Does.forget (quiet_add (sumsIn_simple rfl (fun _ => rfl) rfl rfl))

/-- The node does what is watched, wherever it stands. -/
def Tracked (s : Settings) (n : Node) : Prop :=
  ∀ known steady, Does known steady False (buildNode s n) (watchNode steady n) False

theorem follows_runAll {ns : List Node} (h : ∀ n ∈ ns, Tracked s n) :
    Does known steady False (runAll (ns.map (buildNode s))) (walkAll (ns.map (watchNode steady)))
      False := by
  induction ns generalizing known with
  | nil => exact .pure True.intro
  | cons n rest ih =>
      refine (h n List.mem_cons_self known steady).bind fun known' _ _ _ _ => ?_
      exact ih fun n hn => h n (List.mem_cons_of_mem _ hn)

theorem walkAll_append (ws ws' : List (Walk Unit)) :
    walkAll (ws ++ ws') = (do walkAll ws; walkAll ws') := by
  induction ws with
  | nil => simp [walkAll]
  | cons w rest ih => simp [walkAll, ih]

theorem walkAll_trimEdges (ns : List Node) :
    walkAll ((Markup.trimEdges isEdgeText ns).map (watchNode steady)) =
      walkAll (ns.map (watchNode steady)) := by
  have hfront : walkAll ((if ns.head?.any isEdgeText then ns.tail else ns).map (watchNode steady)) =
      walkAll (ns.map (watchNode steady)) := by
    cases ns with
    | nil => rfl
    | cons n rest =>
        split
        · next h =>
            simp only [List.tail_cons, List.map_cons, walkAll]
            rw [watchNode_edge h, pure_bind]
        · rfl
  rw [← hfront]
  unfold Markup.trimEdges
  dsimp only
  generalize (if ns.head?.any isEdgeText then ns.tail else ns) = ms
  split
  · next h =>
      obtain ⟨n, hn, he⟩ := (Option.any_eq_true _ _).1 h
      obtain ⟨front, rfl⟩ := List.getLast?_eq_some_iff.1 hn
      rw [List.dropLast_concat, List.map_append, walkAll_append]
      simp [walkAll, watchNode_edge he]
  · rfl

theorem follows_buildChildren {ns : List Node} (h : ∀ n ∈ ns, Tracked s n) :
    Does known steady False (buildChildren s (ns.zip (ns.map (buildNode s))))
      (walkAll (ns.map (watchNode steady))) False := by
  refine quiet_get fun d => ?_
  simp only [zip_map_self]
  split
  · simp only [trimEdges_map, List.map_map]
    rw [← walkAll_trimEdges]
    exact follows_runAll fun n hn => h n (trimEdges_subset _ _ hn)
  · simp only [List.map_map]
    exact follows_runAll h

theorem quiet_setMode (mode : TextMode) :
    Quiet known steady i (modify fun d => { d with mode }) i fun _ _ => True := by
  intro d u d' s hd ha _ _ hi hr
  cases runs_modify.1 hr
  exact ⟨[], [], traced_same ⟨ha.locals, ha.armed, ha.scripts⟩
    (extends_flags hd rfl rfl rfl hd.call) rfl (.refl s) (by simp), hi, True.intro⟩

theorem follows_buildContent {e : Element} (h : ∀ n ∈ e.children, Tracked s n) :
    Does known steady False (buildContent s e (e.children.map (buildNode s)))
      (watchContent steady e (e.children.map (watchNode steady))) False := by
  unfold buildContent
  refine (quiet_put _).bind fun _ _ _ _ => ?_
  refine quiet_get fun d => ?_
  refine (quiet_setMode _).bind fun _ _ _ _ => ?_
  refine (follows_buildChildren h).bind fun _ _ _ _ _ => ?_
  refine (quiet_setMode _).bind fun _ _ _ _ => ?_
  refine follows_get fun d w ha => ?_
  rw [ha.scripts]
  split
  · refine Does.andQuiet (follows_ensureExtras true) fun _ _ => ?_
    exact (quiet_put _).bind fun _ _ _ _ => quiet_put _
  · exact quiet_put _

theorem follows_buildTagged {e : Element} (h : ∀ n ∈ e.children, Tracked s n) :
    Does known steady False (buildTagged s e (e.children.map (buildNode s)))
      (watchTagged steady e (e.children.map (watchNode steady))) False := by
  have hbody (known : List Member) : Does known steady False
      (if e.canHaveChildren then buildContent s e (e.children.map (buildNode s))
        else put (if s.xhtmlStyle then Markup.closeVoidTag else Markup.closeTag))
      (watchBody steady e (e.children.map (watchNode steady))) False := by
    unfold watchBody
    split
    · exact follows_buildContent h
    · exact quiet_put _
  refine (quiet_put _).bind fun _ _ _ _ => ?_
  refine (follows_buildAttributes ⟨rfl, rfl⟩ e.attributes).bind fun _ p l _ hl => ?_
  dsimp only
  cases hp : p.isEmpty with
  | true =>
      simp only [Pending.isEmpty, Bool.and_eq_true, List.isEmpty_iff] at hp
      have hnone : watchLeft steady l = pure () := by
        rw [watchLeft, hl.deferred, hl.hybrids, hp.1, hp.2]
        rfl
      rw [hnone]
      exact hbody _
  | false =>
      refine (quiet_buildElementId e p).bind fun _ id _ _ => ?_
      refine (hbody _).bind fun _ _ _ _ _ => ?_
      exact follows_buildPending hl hp id

theorem follows_buildElement {e : Element} (h : ∀ n ∈ e.children, Tracked s n) :
    Does known steady False (buildElement s e (e.children.map (buildNode s)))
      (watchElement steady e (e.children.map (watchNode steady))) False := by
  unfold buildElement watchElement
  split
  · refine follows_noteScript.bind fun _ _ _ _ _ => ?_
    refine (follows_ensureExtras true).bind fun _ _ _ _ _ => ?_
    exact follows_buildTagged h
  · exact follows_buildTagged h

/-! Loops. -/

def CallsTo (known : List Member) (name : String) (S : Summary) : Prop :=
  ∀ c, Provides c known → ∃ m, c.findMethod? name = some m ∧ Sums c m.body S

theorem CallsTo.mono {name : String} (h : CallsTo known name S) (hs : known ⊆ known') :
    CallsTo known' name S := fun c hc => h c (hc.mono hs)

theorem CallsTo.sumsIn {name : String} (h : CallsTo known name S) (args : List Expr) :
    SumsIn known [.expr (.invokeSelf .void name args)] S := by
  intro c hc
  obtain ⟨m, hm, hs⟩ := h c hc
  exact sums_call hm rfl hs

theorem sumsIn_loop {init : Option Stmt} {test : Expr} {step : Option Stmt} {body : List Stmt}
    (h : SumsIn known body S) : SumsIn known [.loop init test step body] S.perhaps :=
  fun c hc => sums_loop (h c hc)

theorem sumsIn_var (v : VarDecl) : SumsIn known [.var v] {} :=
  sumsIn_simple rfl (fun _ => rfl) rfl rfl

theorem sumsIn_vars (vs : List VarDecl) : SumsIn known [.vars vs] {} :=
  sumsIn_simple rfl (fun _ => rfl) rfl rfl

theorem follows_buildCountLoop {render : String} (h : CallsTo known render S) (count data : Expr) :
    Does known steady True (buildCountLoop render count data) (watchSummary S.perhaps) True := by
  refine (quiet_freshName _).bind fun _ _ h₁ _ => ?_
  refine (quiet_freshName _).bind fun _ _ h₂ _ => ?_
  refine (quiet_freshName _).bind fun _ _ h₃ _ => ?_
  refine (quiet_add (sumsIn_var _)).bind fun _ _ h₄ _ => ?_
  have hsub := List.Subset.trans h₁ (List.Subset.trans h₂ (List.Subset.trans h₃ h₄))
  exact follows_add (sumsIn_loop ((h.mono hsub).sumsIn _))

theorem quiet_newCursor (items : Expr) :
    Quiet known steady i (newCursor items) i fun _ _ => True := by
  refine (quiet_freshName _).bind fun _ _ _ _ => ?_
  refine (quiet_freshName _).bind fun _ _ _ _ => ?_
  refine (quiet_freshName _).bind fun _ _ _ _ => ?_
  refine (quiet_freshName _).bind fun _ _ _ _ => ?_
  exact .pure True.intro

theorem follows_addLoop (c : Cursor) {body : List Stmt} (h : SumsIn known body S) :
    Does known steady True (c.addLoop body) (watchSummary S.perhaps) True := by
  refine (quiet_add (sumsIn_var _)).bind fun _ _ h₁ _ => ?_
  refine (quiet_add (sumsIn_vars _)).bind fun _ _ h₂ _ => ?_
  exact follows_add (sumsIn_loop (h.mono (List.Subset.trans h₁ h₂)))

theorem follows_buildMapLoop {render : String} (h : CallsTo known render S) (source : Expr) :
    Does known steady True (buildMapLoop render source) (watchSummary S.perhaps) True := by
  refine (quiet_newCursor _).bind fun _ c h₁ _ => ?_
  refine (quiet_freshName _).bind fun known' _ h₂ _ => ?_
  refine follows_addLoop c fun cls hc => ?_
  rw [← Summary.nil_andThen S]
  exact (sumsIn_var _ cls hc).append ((h.mono (List.Subset.trans h₁ h₂)).sumsIn _ cls hc)

theorem follows_buildListLoop {render : String} (h : CallsTo known render S) (source : Expr) :
    Does known steady True (buildListLoop render source) (watchSummary S.perhaps) True :=
  (quiet_newCursor _).bind fun _ c hsub _ => follows_addLoop c ((h.mono hsub).sumsIn _)

theorem follows_buildLoopHead {render : String} (h : CallsTo known render S) (l : Loop) :
    Does known steady True (buildLoopHead l render)
      (do watchLoopHead l; watchSummary S.perhaps) True := by
  unfold buildLoopHead watchLoopHead
  cases argumentBlock? l.count with
  | some count =>
      simp only [bind_assoc]
      refine (follows_requiredExpr count).bind fun _ e _ h₁ _ => ?_
      cases argumentBlock? l.data with
      | some data =>
          refine (follows_requiredExpr data).bind fun _ e' _ h₂ _ => ?_
          exact follows_buildCountLoop (h.mono (List.Subset.trans h₁ h₂)) e e'
      | none => exact follows_buildCountLoop (h.mono h₁) e _
  | none =>
      cases argumentBlock? l.within with
      | some source =>
          exact (follows_requiredExpr source).bind fun _ e _ hsub _ =>
            follows_buildMapLoop (h.mono hsub) e
      | none =>
          cases argumentBlock? l.each with
          | some source =>
              exact (follows_requiredExpr source).bind fun _ e _ hsub _ =>
                follows_buildListLoop (h.mono hsub) e
          | none => exact .throw

/-- What is watched does not depend on the setups so far, nor does it touch them. -/
def Blind (f : Walk Unit) : Prop :=
  ∀ (s : Watch) (done exposed : Bool),
    (f.run { s with done, exposed }).2 = { (f.run s).2 with done, exposed }

theorem run_watchRequired (b : CodeBlock) (s : Watch) :
    ((watchRequired b).run s).2 =
      { s with
        names := (Script.compile s.names (clientCode b)).2
        armed := outcomeOf false (Script.compile s.names (clientCode b)).1 = .hybrid || s.armed } := rfl

theorem blind_watchRequired (b : CodeBlock) : Blind (watchRequired b) := by
  intro s done exposed
  rw [run_watchRequired, run_watchRequired]

theorem Blind.bind {f g : Walk Unit} (hf : Blind f) (hg : Blind g) : Blind (do f; g) := by
  intro s done exposed
  show (g.run (f.run { s with done, exposed }).2).2 = { (g.run (f.run s).2).2 with done, exposed }
  rw [hf, hg]

theorem blind_watchLoopHead (l : Loop) : Blind (watchLoopHead l) := by
  unfold watchLoopHead
  split
  · refine (blind_watchRequired _).bind ?_
    split
    · exact blind_watchRequired _
    · exact fun _ _ _ => rfl
  · exact blind_watchRequired _
  · exact blind_watchRequired _
  · exact fun _ _ _ => rfl

/-- The watch as if nothing had counted since an earlier one. -/
def Watch.discounted (w r : Watch) : Watch := { w with done := r.done, exposed := r.exposed }

theorem follows_loop {body : Build Unit} {f : Walk Unit}
    (h : Does known steady True body f j) (l : Loop) :
    Does known steady i (do let render ← buildRenderMethod body; buildLoopHead l render)
      (do perhaps f; watchLoopHead l) True := by
  intro d u d' s hd ha hf hu _ hr
  obtain ⟨render, e, hr, hhead⟩ := runs_bind.1 hr
  obtain ⟨stmts, added, S, hext, hagrees, hidle, ⟨hmem, hnew, hinit⟩, hadded, hw, hs⟩ :=
    runs_method_of_follows h hd ha hu hr
  -- the setups in the body count there only, but the call is made before the head is built
  let s₁ : Watch := (f.run s).2.discounted s
  have hcalls : CallsTo (known ++ (added ++ [.method (renderMethod render stmts)])) render S := by
    intro c hc
    refine ⟨renderMethod render stmts, ?_, hs c (hc.mono ?_)⟩
    · exact ClassOf.findMethod?_of_mem hc.distinct
        (hc.members (.method (renderMethod render stmts)) (by simp))
    · rw [← List.append_assoc]
      exact List.subset_append_left _ _
  have hfirst : Traced known s s₁ d e d.flushed (added ++ [.method (renderMethod render stmts)]) := by
    refine ⟨hext, ⟨hagrees.locals, hagrees.armed, hagrees.scripts⟩, ?_, {}, d.waiting, ?_,
      sumsIn_flushed hd, ?_⟩
    · intro m hm
      rcases List.mem_append.1 hm with hm | hm
      · obtain ⟨hmem, hinit, name, hname, hold, -⟩ := hadded m hm
        exact ⟨hmem, hinit, name, hname, hold⟩
      · rw [List.mem_singleton.1 hm]
        exact ⟨hmem, hinit, render, rfl, hnew⟩
    · exact ⟨by simp [s₁, Watch.discounted], by simp [s₁, Watch.discounted]⟩
    · rw [waiting_of_not hidle]
  have hrest := (follows_buildLoopHead hcalls l).after hfirst hf hu (fun _ => hidle) hhead
  have hsame : ((do watchLoopHead l; watchSummary S.perhaps : Walk Unit).run s₁).2 =
      ((do perhaps f; watchLoopHead l : Walk Unit).run s).2 := by
    have hleft := blind_watchLoopHead l (f.run s).2 s.done s.exposed
    have hright := blind_watchLoopHead l (f.run s).2 s.done (f.run s).2.exposed
    show ((watchSummary S.perhaps).run ((watchLoopHead l).run s₁).2).2 =
      ((watchLoopHead l).run { (f.run s).2 with done := s.done }).2
    rw [hright, hw.exposed]
    show ((watchSummary S.perhaps).run
      ((watchLoopHead l).run { (f.run s).2 with done := s.done, exposed := s.exposed }).2).2 = _
    rw [hleft, run_watchSummary]
    simp [Summary.perhaps]
  rwa [hsame] at hrest

/-! Parts. -/

theorem provides_promoted {known : List Member} {render : String} (hd : Tidy d)
    (hk : ∀ m ∈ known, m ∈ d.target.members ∧ m.name ≠ render) :
    Provides (d.promoted render).target known where
  distinct := hd.distinct_promoted render
  names := by
    intro name hn
    rcases ClassOf.name_of_mem_rename (f := asRender) (fun _ => rfl) hn with rfl | hn
    · exact Or.inl List.mem_cons_self
    · rcases hd.given name hn with hf | ht
      · exact Or.inl (List.mem_cons_of_mem _ hf)
      · exact Or.inr fun he => Names.not_taken_of_unnumbered he ht
  members := fun m hm => ClassOf.mem_modifyFirst_of_ne (hk m hm).1 (hk m hm).2

theorem partSum_promoted {body : Build Unit} {f : Walk Unit} {render : String}
    (h : Does [] steady True body f j) (hd : Tidy d) (ha : Agrees w d)
    (hu : d.isUnconditional = steady) (hr : Runs (buildRenderMethod body) d render d') :
    ∃ S, Extends d d.flushed d' ∧ Agrees (f.run w).2 d' ∧ d'.hasCall = false ∧
      Watched w S (f.run w).2 ∧ PartSum (d'.promoted render).target S := by
  obtain ⟨stmts, added, S, hext, hagrees, hidle, ⟨hmem, -, -⟩, hadded, hw, hs⟩ :=
    runs_method_of_follows h hd ha hu hr
  have hprovides : Provides (d'.promoted render).target added := by
    refine provides_promoted hext.tidy fun m hm => ?_
    obtain ⟨hmem, -, name, hname, -, hne⟩ := hadded m hm
    exact ⟨hmem, by rwa [Member.name?_eq_some hname]⟩
  refine ⟨S, hext, hagrees, hidle, hw, asRender (renderMethod render stmts), ?_, hs _ hprovides⟩
  refine ClassOf.findMethod?_of_mem (m := asRender (renderMethod render stmts)) hprovides.distinct ?_
  exact ClassOf.mem_modifyFirst_self (f := asRender) hext.tidy.distinct hmem

/-- A part is built in a class of its own. Nothing in it counts where it is built. -/
theorem traced_part {p : PartOf (Build Unit)} {f : Walk Unit} {name : String}
    (h : Does [] steady True (runAll p.children) f j) (hd : Tidy d) (ha : Agrees w d)
    (hu : d.isUnconditional = steady) (hr : Runs (buildPart p) d name d') :
    ∃ q S, q.name = name ∧ PartSum q S ∧
      ((watchPart f).run w).2.exposed = (w.exposed || (!w.done && S.exposed)) ∧
      ∀ known r, Traced known r (((watchPart f).run w).2.discounted r) d d' d.flushed [.nested q] := by
  obtain ⟨rfl, render, e, hrender, rfl⟩ := runs_buildPart.1 hr
  have hin := tidy_inPart hd p.name
  have hnone : Script.Renamed {} := fun name given hg => by cases hg
  obtain ⟨S, hext, hagrees, hidle, hw, hsum⟩ := partSum_promoted (w := { w with names := {} }) h hin
    ⟨⟨fun _ => rfl, hnone, hnone⟩, ha.armed, ha.scripts⟩ hu hrender
  have hpart : Extends d d.flushed (d.withPart (e.promoted render)) := extends_withPart hd hext
  refine ⟨(e.promoted render).target, S, hext.className, hsum, hw.exposed, fun known r => ?_⟩
  have hnew : (d.names.fresh "part_").1 ∉ d.target.names :=
    hd.not_mem (Names.taken_fresh isStem_part) (Names.not_taken_fresh isStem_part)
  refine ⟨hpart, ⟨⟨ha.locals.locals, ha.locals.left, ha.locals.right⟩, hagrees.armed, hagrees.scripts⟩,
    ?_, {}, d.waiting, ⟨by simp [Watch.discounted], by simp [Watch.discounted]⟩, sumsIn_flushed hd, ?_⟩
  · intro m hm
    rw [List.mem_singleton.1 hm]
    have hname : (e.promoted render).target.name = (d.names.fresh "part_").1 := hext.className
    refine ⟨List.mem_append_right _ (List.mem_singleton.2 rfl), ?_, _, rfl, ?_⟩
    · show (e.promoted render).target.name ≠ "init"
      rw [hname]
      exact ne_init_of_taken (Names.taken_fresh isStem_part)
    · show (e.promoted render).target.name ∉ d.target.names
      rwa [hname]
  · have hwaiting : (d.withPart (e.promoted render)).waiting = {} := waiting_of_not hidle
    rw [hwaiting]

theorem quiet_addToInit (stmt : Stmt) :
    Quiet known steady i (addToInit stmt) i fun _ _ => True := by
  intro d u d' w hd ha _ _ hi hr
  obtain rfl := runs_addToInit.1 hr
  have hsame : d.addInit stmt = { d with target := (d.addInit stmt).target } := by
    unfold Draft.addInit Draft.withInit
    split <;> rfl
  have hext := extends_addInit hd stmt
  rw [hsame] at hext ⊢
  exact ⟨[], [], traced_same ⟨ha.locals, ha.armed, ha.scripts⟩ hext rfl (.refl w) (by simp), hi,
    True.intro⟩

def Parts (known : List Member) (qs : List (ClassDecl × Summary)) : Prop :=
  ∀ q ∈ qs, .nested q.1 ∈ known ∧ PartSum q.1 q.2

theorem Parts.mono {qs : List (ClassDecl × Summary)} (h : Parts known qs) (hs : known ⊆ known') :
    Parts known' qs := fun q hq => ⟨hs (h q hq).1, (h q hq).2⟩

theorem sumsIn_renderParts {qs : List (ClassDecl × Summary)} (h : Parts known qs) {method : String}
    {args : List Expr} (hm : method ∉ ownNames) (hu : unnumbered method = method)
    (ha : actsOf (renderCall method args (.parts (qs.map fun q => q.1.name))) = []) :
    SumsIn known [renderCall method args (.parts (qs.map fun q => q.1.name))]
      { exposed := qs.any (·.2.exposed) } := by
  intro c hc
  refine sums_parts hc.distinct rfl (findMethod?_inherited hc hm hu) ha rfl fun q hq => ?_
  exact ⟨hc.members _ (h q hq).1, (h q hq).2⟩

theorem follows_renderParts {qs : List (ClassDecl × Summary)} (h : Parts known qs) {method : String}
    {args : List Expr} (hm : method ∉ ownNames) (hu : unnumbered method = method)
    (ha : actsOf (renderCall method args (.parts (qs.map fun q => q.1.name))) = []) (init : Stmt) :
    Does known steady False (do
      addToInit init
      flush
      add (renderCall method args (.parts (qs.map fun q => q.1.name))))
      (watchSummary { exposed := qs.any (·.2.exposed) }) True := by
  refine (quiet_addToInit init).bind fun _ _ h₁ _ => ?_
  refine quiet_flush.bind fun _ _ h₂ _ => ?_
  exact follows_add (sumsIn_renderParts (h.mono (List.Subset.trans h₁ h₂)) hm hu ha)

/-- What did not count where it was built counts where it is rendered. -/
theorem run_watchSummary_discounted {r w : Watch} {exposed : Bool} (hdone : w.done = r.done)
    (hexposed : w.exposed = (r.exposed || (!r.done && exposed))) :
    ((watchSummary { exposed }).run (w.discounted r)).2 = w := by
  rw [run_watchSummary, Watch.discounted]
  dsimp only
  rw [← hexposed, Bool.or_false, ← hdone]

theorem follows_buildPartSlot {p : PartOf (Build Unit)} {f : Walk Unit}
    (h : Does [] steady True (runAll p.children) f j) :
    Does known steady i (buildPartSlot p) (watchPart f) True := by
  unfold buildPartSlot
  split
  · exact .throw
  · intro d u d' w hd ha hf hu _ hr
    obtain ⟨name, e, hpart, hr⟩ := runs_bind.1 hr
    obtain ⟨q, S, rfl, hsum, hexposed, htraced⟩ := traced_part h hd ha hu hpart
    have hparts : Parts (known ++ [.nested q]) [(q, S)] := by
      intro q' hq
      rw [List.mem_singleton.1 hq]
      exact ⟨List.mem_append_right _ (List.mem_singleton.2 rfl), hsum⟩
    have hrest := (follows_renderParts hparts (by decide) (by decide) rfl _).after (htraced known w) hf hu
      False.elim hr
    have hsame : ((watchSummary { exposed := [(q, S)].any (·.2.exposed) }).run
        (((watchPart f).run w).2.discounted w)).2 = ((watchPart f).run w).2 :=
      run_watchSummary_discounted rfl (by simpa using hexposed)
    rwa [hsame] at hrest

/-! Calls. -/

def watchContentOf (steady : Bool) (p : Part) : Walk Unit :=
  watchPart (walkAll (p.children.map (watchNode steady)))

theorem traced_parts {ps : List Part} (h : ∀ p ∈ ps, ∀ n ∈ p.children, Tracked s n) (hd : Tidy d)
    (ha : Agrees w d) (hu : d.isUnconditional = steady) {names : List String}
    (hr : Runs (buildParts (ps.map (mapPart (buildNode s)))) d names d') {w' : Watch}
    (hw : w' = ((walkAll (ps.map (watchContentOf steady))).run w).2) :
    ∃ (qs : List (ClassDecl × Summary)) (new : List Stmt), names = qs.map (fun q => q.1.name) ∧
      (∀ q ∈ qs, PartSum q.1 q.2) ∧ w'.done = w.done ∧
      w'.exposed = (w.exposed || (!w.done && qs.any (·.2.exposed))) ∧
      ∀ known r, Traced known r (w'.discounted r) d d' new (qs.map fun q => .nested q.1) := by
  subst hw
  induction ps generalizing d w names with
  | nil =>
      obtain ⟨rfl, rfl⟩ := runs_pure.1 hr
      have hsame : w.exposed = (w.exposed || (!w.done && false)) := by simp
      refine ⟨[], [], rfl, by simp, rfl, hsame, fun known r => ?_⟩
      exact traced_same ⟨ha.locals, ha.armed, ha.scripts⟩ (.refl hd) rfl
        ⟨by simp [Watch.discounted], by simp [Watch.discounted]⟩ (by simp)
  | cons p rest ih =>
      simp only [List.map_cons, buildParts, runs_bind, runs_pure] at hr
      obtain ⟨name, e, hpart, names', e', hrest, rfl, rfl⟩ := hr
      have hchildren : Does [] steady True (runAll (p.children.map (buildNode s)))
          (walkAll (p.children.map (watchNode steady))) False :=
        (follows_runAll (h p List.mem_cons_self)).anywhere
      obtain ⟨q, S, rfl, hsum, hexposed, htraced⟩ := traced_part hchildren hd ha hu hpart
      have hfirst := htraced [] w
      have hagrees : Agrees ((watchContentOf steady p).run w).2 e :=
        ⟨hfirst.agrees.locals, hfirst.agrees.armed, hfirst.agrees.scripts⟩
      obtain ⟨qs, new, rfl, hsums, hdone, hexposed', htraced'⟩ := ih
        (fun p hp => h p (List.mem_cons_of_mem _ hp)) hfirst.ext.tidy hagrees
        ((isUnconditional_of_extends hfirst.ext).trans hu) hrest
      refine ⟨(q, S) :: qs, d.flushed ++ new, rfl, List.forall_mem_cons.2 ⟨hsum, hsums⟩, hdone, ?_,
        fun known r => ?_⟩
      · refine hexposed'.trans ?_
        have hsame : ((watchContentOf steady p).run w).2.done = w.done := rfl
        rw [hsame]
        show (((watchPart _).run w).2.exposed || _) = _
        rw [hexposed]
        cases w.done <;> simp [Bool.or_assoc]
      · exact (htraced known r).trans (htraced' _ _)

/-- The arguments of a call are refused exactly if they are watched to be. -/
theorem follows_arguments? (args : List (Option CodeBlock × Param)) :
    Follows known steady i (arguments? args) (watchArguments args) i
      fun _ r ok => ok = r.toBool := by
  induction args generalizing known with
  | nil => exact .pure rfl
  | cons a rest ih =>
      obtain ⟨b, param⟩ := a
      cases b with
      | none =>
          refine Follows.bind (h := pure) ih fun _ r ok _ hok => ?_
          refine .pure ?_
          cases r <;> exact hok
      | some b =>
          refine (follows_fragment? b false).bind fun _ r o _ ho => ?_
          obtain ⟨ho, hd⟩ := ho
          cases r with
          | error e =>
              rw [Matches] at ho
              rw [if_pos ho]
              exact .pure rfl
          | ok f =>
              have hne : o ≠ .refused := by
                rw [Matches] at ho
                rw [ho]
                split <;> simp
              rw [if_neg hne]
              refine Follows.bind (h := pure) ih fun _ r ok _ hok => ?_
              refine .pure ?_
              cases r <;> exact hok

theorem follows_putCalledView (c : Call) :
    Does known steady i (putCalledView s c) (watchCalledView c) False := by
  unfold putCalledView watchCalledView
  cases calledName? c.view with
  | some name => exact Does.forget (quiet_put _)
  | none =>
      cases c.view with
      | none => exact .throw
      | some v =>
          cases v with
          | code b =>
              refine (quiet_put _).bind fun _ _ _ _ => ?_
              refine Does.andQuiet (follows_requiredExpr b) fun _ view => ?_
              refine quiet_flush.bind fun _ _ _ _ => ?_
              refine (quiet_add (sumsIn_writeData view)).bind fun _ _ _ _ => ?_
              exact Does.forget (quiet_put _)
          | _ => exact .throw

theorem follows_buildDeferredCall (c : Call) :
    Does known steady i (buildDeferredCall s c) (watchDeferredCall steady c) True := by
  show Does known steady i (buildDeferredCall s c) (do
    (do watchScript; watchSetUp steady)
    watchCalledView c
    let _ ← watchArguments (callArguments c)
    watchCall) True
  refine follows_openScriptWithId.bind fun _ id _ _ _ => ?_
  refine (follows_putCalledView c).bind fun _ _ _ _ _ => ?_
  refine (quiet_put _).bind fun _ _ _ _ => ?_
  refine (follows_arguments? _).bind fun _ r _ _ _ => ?_
  cases r with
  | error e => exact .throw
  | ok args =>
      refine (quiet_putData args).bind fun _ _ _ _ => ?_
      refine follows_putCall.andQuiet fun _ _ => ?_
      refine quiet_flush.bind fun _ _ _ _ => ?_
      refine (quiet_add (sumsIn_writeData id)).bind fun _ _ _ _ => ?_
      refine (quiet_put _).bind fun _ _ _ _ => ?_
      exact quiet_put _

theorem watched_watchArguments (args : List (Option CodeBlock × Param)) (w : Watch) :
    Watched w {} ((watchArguments args).run w).2 := by
  induction args generalizing w with
  | nil => exact .refl w
  | cons a rest ih =>
      obtain ⟨b, param⟩ := a
      cases b with
      | none => exact ih w
      | some b =>
          have hfirst : Watched w {} ((watchFragment b false).run w).2 := by
            rw [run_watchFragment]
            exact ⟨by simp, by simp⟩
          rw [watchArguments, StateT.run_bind]
          generalize (watchFragment b false).run w = r at hfirst
          show Watched w {} ((if r.1 = .refused then pure false else watchArguments rest : Walk Bool).run
            r.2).2
          by_cases ho : r.1 = .refused
          · rw [if_pos ho]
            exact hfirst
          · rw [if_neg ho]
            exact hfirst.trans (ih _)

/-- Arguments that are refused leave no members behind, whatever is done instead. -/
theorem follows_orRefused {args : List (Option CodeBlock × Param)} {x : Build α}
    {y : List Expr → Build α} {f g : Walk β} (hx : ∀ known, Does known steady i x f j)
    (hy : ∀ known args, Does known steady i (y args) g j) :
    Does known steady i (do
      let before := (← get).target.members.length
      match ← arguments? args with
      | .error _ =>
        modify fun d => { d with
          target := { d.target with members := d.target.members.take before } }
        x
      | .ok args => y args) (do if ← watchArguments args then g else f) j := by
  intro d a d' w hd ha hf hu hi hr
  simp only [runs_bind, runs_get] at hr
  obtain ⟨_, _, ⟨rfl, rfl⟩, r, e, hargs, hr⟩ := hr
  obtain ⟨new, added, ht, hidle, hok⟩ := follows_arguments? args _ r e w hd ha hf hu hi hargs
  have hrun : (do if ← watchArguments args then g else f : Walk β).run w =
      (if ((watchArguments args).run w).1 then g else f).run ((watchArguments args).run w).2 := rfl
  rw [hrun, hok]
  cases r with
  | ok args => exact (hy _ args).after ht hf hu hidle hr
  | error err =>
      obtain ⟨names, ms, he, hle, hrn⟩ := runs_arguments? hd hargs
      subst he
      simp only [runs_bind, runs_modify, take_withMembers] at hr
      obtain ⟨_, _, rfl, hr⟩ := hr
      refine (hx (known ++ [])).after (traced_same ?_ (extends_names hd hle hrn) rfl
        (watched_watchArguments args w) (by simp)) hf hu hi hr
      exact ⟨ht.agrees.locals, ht.agrees.armed, ht.agrees.scripts⟩

theorem quiet_newField {g : String → Build α} {f : Walk β}
    (hg : ∀ known name, Does known steady i (g name) f j) :
    Does known steady i (do
      let name ← freshName "view_"
      addMember (.field { access := .classOnly, type := .view, name })
      g name) f j := by
  intro d a d' w hd ha hf hu hi hr
  simp only [runs_bind, runs_freshName, addMember, runs_modify] at hr
  obtain ⟨_, _, ⟨rfl, rfl⟩, _, e, rfl, hr⟩ := hr
  have hext := Extends.addFresh hd isStem_view (m := .field {
    access := .classOnly, type := .view, name := (d.names.fresh "view_").1 }) rfl
  refine Follows.after (hg (known ++ []) _) (traced_same ?_ hext rfl (.refl w) (by simp)) hf hu hi hr
  exact ⟨⟨ha.locals.locals, ha.locals.left, ha.locals.right⟩, ha.armed, ha.scripts⟩

theorem follows_buildParts {ps : List Part} (h : ∀ p ∈ ps, ∀ n ∈ p.children, Tracked s n)
    (args : List Expr) (init : List String → Stmt) :
    Does known steady i (do
      let classes ← buildParts (ps.map (mapPart (buildNode s)))
      addToInit (init classes)
      flush
      add (renderCall "renderView" args (.parts classes)))
      (walkAll (ps.map (watchContentOf steady))) True := by
  intro d a d' w hd ha hf hu _ hr
  obtain ⟨classes, e, hparts, hr⟩ := runs_bind.1 hr
  obtain ⟨qs, new, rfl, hsums, hdone, hexposed, htraced⟩ := traced_parts h hd ha hu hparts rfl
  have hknown : Parts (known ++ qs.map fun q => .nested q.1) qs := fun q hq =>
    ⟨List.mem_append_right _ (List.mem_map_of_mem hq), hsums q hq⟩
  have hrest := (follows_renderParts hknown (by decide) (by decide) rfl _).after (htraced known w) hf hu
    False.elim hr
  rwa [run_watchSummary_discounted hdone hexposed] at hrest

theorem follows_buildCall (c : Call) {ps : List Part}
    (h : ∀ p ∈ ps, ∀ n ∈ p.children, Tracked s n) :
    Does known steady i (buildCall s c (ps.map (mapPart (buildNode s))))
      (watchViewCall steady c (ps.map (mapPart (watchNode steady)))) True := by
  unfold buildCall watchViewCall
  split
  · exact follows_buildDeferredCall c
  · cases calledName? c.view with
    | none => exact .throw
    | some name =>
        rw [List.map_map]
        refine follows_orRefused (fun _ => follows_buildDeferredCall c) fun _ args => ?_
        refine quiet_newField fun _ fieldName => ?_
        exact follows_buildParts h _ _

/-! Choices. -/

theorem Gathered.mono_left {known : List Member} {w' : Watch} {added added' : List Member}
    {stmts : List Stmt} (h : Gathered known w w' d d' added stmts S) :
    SumsIn (known ++ (added ++ added')) stmts S := by
  refine h.sums.mono ?_
  rw [← List.append_assoc]
  exact List.subset_append_left _ _

theorem Gathered.mono_right {known : List Member} {w' : Watch} {added added' : List Member}
    {stmts : List Stmt} (h : Gathered known w w' d d' added' stmts S) :
    SumsIn (known ++ (added ++ added')) stmts S := by
  refine h.sums.mono ?_
  intro m hm
  simp only [List.mem_append] at hm ⊢
  exact hm.imp_right Or.inr

theorem gathered_requiredExpr {b : CodeBlock} {e : Expr} (hd : Tidy d) (ha : Agrees w d)
    (hf : d.frames ≠ []) (hu : d.isUnconditional = steady) (hc : d.hasCall = false)
    (hr : Runs (requiredExpr b) d e d') :
    Gathered known w ((watchRequired b).run w).2 d d' [] [] {} := by
  have hfollows : Does known steady True (requiredExpr b) (watchRequired b) True := follows_requiredExpr b
  obtain ⟨_, _, ht, hidle, -⟩ := hfollows d e d' w hd ha hf hu (fun _ => hc) hr
  obtain ⟨f, hfragment, -⟩ := runs_requiredExpr.1 hr
  refine ⟨extends_fragment? hd hfragment, ht.agrees, by simp, hidle True.intro, ?_, sumsIn_nil⟩
  rw [run_watchRequired]
  exact ⟨by simp, by simp⟩

theorem Watched.orElse {w₁ w₂ : Watch} (hy : Watched w S w₁)
    (hn : Watched { w₁ with done := w.done } T w₂) :
    Watched w (S.orElse T) { w₂ with done := w₁.done && w₂.done } where
  done := by
    rw [hn.done, hy.done, Summary.orElse]
    cases w.done <;> simp
  exposed := by
    rw [hn.exposed, hy.exposed, Summary.orElse]
    cases w.done <;> simp [Bool.or_assoc]

theorem run_watchBranches_tested {test : CodeBlock} {children : List Node}
    {position : Option Position} {rest : List Branch} {yes : Watch} (w : Watch)
    (hy : yes = ((walkAll (children.map (watchNode false))).run ((watchRequired test).run w).2).2) :
    ((watchBranches steady (⟨some test, children, position⟩ :: rest)).run w).2 =
      { ((watchBranches false rest).run { yes with done := w.done }).2 with
        done := yes.done &&
          ((watchBranches false rest).run { yes with done := w.done }).2.done } := by
  rw [watchBranches, watchEach_eq, hy]
  rfl

/-- The branches of a choice do what is watched, once they are chained. -/
theorem gathered_buildBranches {branches : List Branch} {inherited : Bool} {built : List BuiltBranch}
    (h : ∀ b ∈ branches, ∀ n ∈ b.children, Tracked s n) (hd : Tidy d) (ha : Agrees w d)
    (hf : d.frames ≠ []) (hu : d.isUnconditional = steady) (hc : d.hasCall = false)
    (hr : Runs (buildBranches s inherited branches) d built d') : ∃ added S,
      Gathered known w ((watchBranches (inherited && steady) branches).run w).2 d d' added (chain built)
        S := by
  induction branches generalizing inherited d w built with
  | nil =>
      obtain ⟨rfl, rfl⟩ := runs_pure.1 hr
      exact ⟨[], {}, .refl hd, ha, by simp, hc, .refl w, sumsIn_nil⟩
  | cons b rest ih =>
      obtain ⟨test, children, position⟩ := b
      obtain ⟨hb, hrest⟩ := List.forall_mem_cons.1 h
      have hchildren (steady : Bool) : Does known steady True (runAll (children.map (buildNode s)))
          (walkAll (children.map (watchNode steady))) False := (follows_runAll hb).anywhere
      cases test with
      | some test =>
          simp only [buildBranches, buildEach_eq, runs_bind, runs_pure] at hr
          obtain ⟨e, d₁, ht, body, d₂, hbody, built, d₃, hr, rfl, rfl⟩ := hr
          have hg : Gathered known w ((watchRequired test).run w).2 d d₁ [] [] {} :=
            gathered_requiredExpr hd ha hf hu hc ht
          have hf₁ := frames_ne_nil hg.ext hf
          have hu₁ := (isUnconditional_of_extends hg.ext).trans hu
          obtain ⟨added, S, hyes⟩ := gathered_inFrame (hchildren false) hg.ext.tidy hg.agrees hu₁ hg.idle
            hbody
          generalize hy : ((walkAll (children.map (watchNode false))).run
            ((watchRequired test).run w).2).2 = yes at hyes
          obtain ⟨added', T, hno⟩ := ih (w := { yes with done := w.done }) hrest hyes.ext.tidy
            ⟨hyes.agrees.locals, hyes.agrees.armed, hyes.agrees.scripts⟩ (frames_ne_nil hyes.ext hf₁)
            ((isUnconditional_of_extends hyes.ext).trans hu₁) hyes.idle hr
          rw [run_watchBranches_tested w hy.symm]
          have hdone : ((watchRequired test).run w).2.done = w.done := by simpa using hg.watched.done
          have hboth := hyes.watched.orElse (T := T) (by rw [hdone]; exact hno.watched)
          have hsums : SumsIn (known ++ (added ++ added')) [.cond e body (chain built)] (S.orElse T) :=
            sumsIn_cond hyes.mono_left hno.mono_right
          have hgathered := hyes.combine hno hboth rfl rfl rfl hsums
          have hall := hg.combine hgathered (by simpa using hg.watched.trans hgathered.watched) rfl rfl rfl
            hgathered.mono_right
          exact ⟨_, _, hall⟩
      | none =>
          simp only [buildBranches, buildEach_eq, runs_bind, runs_pure] at hr
          obtain ⟨body, d₁, hbody, built, d₂, hr, rfl, rfl⟩ := hr
          obtain ⟨added, S, hfirst⟩ := gathered_inFrame (hchildren _) hd ha hu hc hbody
          obtain ⟨added', T, hlast⟩ := ih hrest hfirst.ext.tidy hfirst.agrees
            (frames_ne_nil hfirst.ext hf) ((isUnconditional_of_extends hfirst.ext).trans hu) hfirst.idle hr
          rw [watchBranches, watchEach_eq]
          refine ⟨added ++ added', S.andThen T, hfirst.combine hlast
            (hfirst.watched.trans hlast.watched) rfl rfl rfl fun c hc => ?_⟩
          exact (hfirst.mono_left c hc).append (hlast.mono_right c hc)

theorem follows_choice {branches : List Branch}
    (h : ∀ b ∈ branches, ∀ n ∈ b.children, Tracked s n) :
    Does known steady i (do
      flush
      let built ← buildBranches s (← inMethodFrame) branches
      addAll (chain built)) (watchBranches steady branches) True := by
  refine quiet_flush.bind fun known' _ _ _ => ?_
  intro d u d' w hd ha hf hu hi hr
  have hidle := hi True.intro
  simp only [inMethodFrame, runs_bind, runs_get, runs_pure] at hr
  obtain ⟨inherited, e, ⟨_, _, ⟨rfl, rfl⟩, rfl, rfl⟩, built, e', hb, hr⟩ := hr
  obtain rfl := runs_addAll.1 hr
  have hbranches : ∃ added S, Gathered known' w
      ((watchBranches (e.frames.head?.any (·.ofMethod) && steady) branches).run w).2 e e' added
        (chain built) S := gathered_buildBranches h hd ha hf hu hidle hb
  obtain ⟨added, S, hg⟩ := hbranches
  -- where nothing is under a condition, the innermost frame is that of a method
  have hinherited : (e.frames.head?.any (·.ofMethod) && steady) = steady := by
    cases hframes : e.frames with
    | nil => exact absurd hframes hf
    | cons f rest =>
        rw [← hu, Draft.isUnconditional, hframes]
        cases hm : f.ofMethod <;> simp [hm]
  rw [hinherited] at hg
  exact ⟨_, added, hg.add hidle hg.sums hg.watched rfl rfl rfl, fun _ => hg.idle, True.intro⟩

/-! Nodes. -/

theorem watchSupplies_eq (ns : List Node) :
    watchSupplies steady ns = (ns.map Node.supply).map (mapSupply (watchNode steady)) := by
  induction ns with
  | nil => rfl
  | cons n rest ih =>
      cases n with
      | part body =>
          obtain ⟨name, children, position⟩ := body
          simp [watchSupplies, ih, Node.supply, mapSupply, mapPart, watchEach_eq]
      | _ => simp [watchSupplies, ih, Node.supply, mapSupply]

theorem tracked_text (kind : TextKind) (value : String) (position : Option Position) :
    Tracked s (.text kind value position) := fun known steady => by
  unfold buildNode watchNode
  exact follows_buildText kind value

theorem tracked_code (b : CodeBlock) : Tracked s (.code b) := fun known steady => by
  unfold buildNode watchNode
  exact Does.forget (follows_buildBlock b)

theorem tracked_view (v : View) : Tracked s (.view v) := fun known steady => by
  unfold buildNode
  exact .throw

theorem tracked_element {e : Element} (h : ∀ n ∈ e.children, Tracked s n) :
    Tracked s (.element e) := fun known steady => by
  obtain ⟨tag, attributes, children, position⟩ := e
  unfold buildNode watchNode
  rw [buildEach_eq, watchEach_eq]
  exact follows_buildElement h

theorem tracked_choice {c : Choice} (h : ∀ b ∈ c.branches, ∀ n ∈ b.children, Tracked s n) :
    Tracked s (.choice c) := fun known steady => by
  unfold buildNode watchNode
  exact Does.forget (follows_choice h)

theorem tracked_branch {b : Branch} (h : ∀ n ∈ b.children, Tracked s n) :
    Tracked s (.branch b) := fun known steady => by
  obtain ⟨test, children, position⟩ := b
  have hbody (known : List Member) (test : Expr) : Does known steady True
      (addCondition test (runAll (children.map (buildNode s))))
      (perhaps (walkAll (children.map (watchNode false)))) True :=
    follows_addCondition (follows_runAll h).anywhere
  unfold buildNode watchNode
  rw [buildEach_eq, watchEach_eq]
  refine quiet_flush.bind fun _ _ _ _ => ?_
  cases test with
  | some b => exact (follows_requiredExpr b).bind fun _ e _ _ _ => (hbody _ e).forget
  | none => exact (hbody _ _).forget

theorem tracked_loop {l : Loop} (h : ∀ n ∈ l.children, Tracked s n) :
    Tracked s (.loop l) := fun known steady => by
  obtain ⟨each, within, count, data, children, position⟩ := l
  unfold buildNode watchNode
  rw [buildEach_eq, watchEach_eq]
  split
  · exact .pure True.intro
  · exact Does.forget (follows_loop (follows_runAll h).anywhere _)

theorem tracked_call {c : Call} (h : ∀ n ∈ c.children, ∀ m ∈ supplied n.supply, Tracked s m) :
    Tracked s (.call c) := fun known steady => by
  obtain ⟨view, data, index, count, key, defer, children, position⟩ := c
  unfold buildNode watchNode
  rw [buildSupplies_eq, watchSupplies_eq, gather_map, gather_map]
  refine Does.forget (follows_buildCall _ fun p hp n hn => ?_)
  obtain ⟨supply, hs, hn⟩ := exists_supplied hp hn
  obtain ⟨m, hm, rfl⟩ := List.mem_map.1 hs
  exact h m hm n hn

theorem tracked_part {p : Part} (h : ∀ n ∈ p.children, Tracked s n) :
    Tracked s (.part p) := fun known steady => by
  obtain ⟨name, children, position⟩ := p
  unfold buildNode watchNode
  rw [buildEach_eq, watchEach_eq]
  exact Does.forget (follows_buildPartSlot (follows_runAll h).anywhere)

/-- A node that is no part is supplied to a call as it is. -/
theorem tracked_supplied_self {n : Node} (h : Tracked s n) (hs : supplied n.supply = [n]) :
    Tracked s n ∧ ∀ m ∈ supplied n.supply, Tracked s m := by
  rw [hs]
  exact ⟨h, List.forall_mem_singleton.2 h⟩

mutual

/-- Each node does what is watched, and so does what it supplies to a call. -/
theorem tracked_node : ∀ n : Node, Tracked s n ∧ ∀ m ∈ supplied n.supply, Tracked s m
  | .text kind value position => tracked_supplied_self (tracked_text kind value position) rfl
  | .code b => tracked_supplied_self (tracked_code b) rfl
  | .element ⟨_, _, children, _⟩ =>
      tracked_supplied_self (tracked_element (tracked_buildEach children)) rfl
  | .view v => tracked_supplied_self (tracked_view v) rfl
  | .choice ⟨branches, _⟩ =>
      tracked_supplied_self (tracked_choice (tracked_buildBranches branches)) rfl
  | .branch ⟨_, children, _⟩ =>
      tracked_supplied_self (tracked_branch (tracked_buildEach children)) rfl
  | .loop ⟨_, _, _, _, children, _⟩ =>
      tracked_supplied_self (tracked_loop (tracked_buildEach children)) rfl
  | .call ⟨_, _, _, _, _, _, children, _⟩ =>
      tracked_supplied_self (tracked_call (tracked_supplied children)) rfl
  | .part ⟨_, children, _⟩ => ⟨tracked_part (tracked_buildEach children), tracked_buildEach children⟩

theorem tracked_buildEach : ∀ ns : List Node, ∀ n ∈ ns, Tracked s n
  | [] => by simp
  | n :: rest => List.forall_mem_cons.2 ⟨(tracked_node n).1, tracked_buildEach rest⟩

theorem tracked_buildBranches : ∀ branches : List Branch, ∀ b ∈ branches, ∀ n ∈ b.children, Tracked s n
  | [] => by simp
  | ⟨_, children, _⟩ :: rest =>
      List.forall_mem_cons.2 ⟨tracked_buildEach children, tracked_buildBranches rest⟩

theorem tracked_supplied : ∀ ns : List Node, ∀ n ∈ ns, ∀ m ∈ supplied n.supply, Tracked s m
  | [] => by simp
  | n :: rest => List.forall_mem_cons.2 ⟨(tracked_node n).2, tracked_supplied rest⟩

end

theorem tracked_buildNode (n : Node) : Tracked s n := (tracked_node n).1

/-! Views. -/

/-- Rendering a view comes to what is watched on the way through its template. -/
theorem partSum_buildView {v : View} {c : ClassDecl} (hb : buildView s v = .ok c) :
    ∃ S, PartSum c S ∧ (watchView v).exposed = S.exposed := by
  obtain ⟨package, name, d', hrun, rfl⟩ := runs_buildView hb
  obtain ⟨render, e, hr, hpromote⟩ := runs_bind.1 hrun
  obtain rfl := runs_promote.1 hpromote
  rw [buildEach_eq] at hr
  have hbody : Does [] true True (runAll (v.children.map (buildNode s)))
      (walkAll (v.children.map (watchNode true))) False :=
    (follows_runAll (tracked_buildEach v.children)).anywhere
  have hnone : Script.Renamed {} := fun name given hg => by cases hg
  have hagrees : Agrees {} { target := viewClass package name } :=
    ⟨⟨fun _ => rfl, hnone, hnone⟩, rfl, rfl⟩
  obtain ⟨S, -, -, -, hw, hsum⟩ := partSum_promoted hbody (tidy_view package name) hagrees rfl hr
  refine ⟨S, hsum, ?_⟩
  rw [watchView, watchEach_eq]
  simpa using hw.exposed

/-- A view sets up the client before every call of a script exactly if no call is watched without a
setup. -/
theorem setUpFirst_iff_watchView {v : View} {c : ClassDecl} (hb : buildView s v = .ok c) :
    SetUpFirst c ↔ (watchView v).exposed = false := by
  obtain ⟨S, hsum, he⟩ := partSum_buildView hb
  rw [setUpFirst_iff hsum, he]

def guardedScripts : View where
  name := "V"
  children := [
    .branch {
      test := some { kind := .expression, value := "data.a" }
      children := [.code { kind := .expression, value := "f()" }] },
    .code { kind := .expression, value := "g()" }]

theorem setUpFirst_iff_watchView_guardedScripts :
    ∃ c, buildView {} guardedScripts = .ok c ∧ (watchView guardedScripts).exposed = false ∧
      SetUpFirst c := by
  have hok : (buildView {} guardedScripts).isOk := by decide +kernel
  have he : (watchView guardedScripts).exposed = false := by decide +kernel
  obtain ⟨c, h⟩ := exists_ok hok
  exact ⟨c, h, he, (setUpFirst_iff_watchView h).2 he⟩

/-- A script in the body of a loop, and one behind the loop. -/
def loopedScripts : View where
  name := "V"
  children := [
    .loop {
      each := some (.code { kind := .expression, value := "data" })
      children := [.code { kind := .expression, value := "f()" }] },
    .code { kind := .expression, value := "g()" }]

/-- If the loop does not run at all, the script behind it makes its call without a setup. -/
theorem not_setUpFirst_loopedScripts :
    ∃ c, buildView {} loopedScripts = .ok c ∧ ¬ SetUpFirst c := by
  have hok : (buildView {} loopedScripts).isOk := by decide +kernel
  have he : (watchView loopedScripts).exposed = true := by decide +kernel
  obtain ⟨c, h⟩ := exists_ok hok
  obtain ⟨S, hsum, hs⟩ := partSum_buildView h
  refine ⟨c, h, fun hfirst => ?_⟩
  rw [setUpFirst_iff hsum, ← hs, he] at hfirst
  cases hfirst

end TwinView.Server
