import TwinView.Proofs.Code.Members
import TwinView.Proofs.Script.Similar
import TwinView.Proofs.Server.Runs

/-!
What a builder can do to a draft: it adds statements to the innermost frame, gives out names and adds
members under those names. It never takes anything back, and no two members get the same name.
-/

namespace TwinView.Server

open Code

variable {α β : Type} {s : Settings} {d d' d'' : Draft} {new new' : List Stmt}

def extendTop (new : List Stmt) : List Frame → List Frame
  | [] => []
  | f :: rest => { f with stmts := f.stmts ++ new } :: rest

@[simp] theorem extendTop_nil (frames : List Frame) : extendTop [] frames = frames := by
  cases frames <;> simp [extendTop]

@[simp] theorem extendTop_extendTop (frames : List Frame) :
    extendTop new' (extendTop new frames) = extendTop (new ++ new') frames := by
  cases frames <;> simp [extendTop]

def fixedNames : List String := ["init", "getPartName"]

theorem not_taken_of_fixed {n : Names} {name : String} (h : name ∈ fixedNames) : ¬ n.Taken name := by
  simp only [fixedNames, List.mem_cons, List.not_mem_nil, or_false] at h
  apply Names.not_taken_of_unnumbered
  rcases h with rfl | rfl <;> decide

/-- The members have names of their own, all of which have been given out. -/
structure Named (c : ClassDecl) (n : Names) : Prop where
  distinct : c.Distinct
  given : ∀ name ∈ c.names, name ∈ fixedNames ∨ n.Taken name
  init : ∀ m ∈ c.members, m.name? = some "init" → m.isMethod "init"

theorem Named.mono {c : ClassDecl} {n n' : Names} (h : Named c n) (hle : n.Le n') : Named c n' :=
  ⟨h.distinct, fun name hn => (h.given name hn).imp_right fun ht => ht.mono hle, h.init⟩

structure Tidy (d : Draft) : Prop extends Named d.target d.names where
  renamed : Script.Renamed d.names
  /-- A call that is pending is pending markup. -/
  call : d.hasCall → d.buffer ≠ ""

/-- The draft `d'` is `d` with the statements `new` in its innermost frame, and perhaps with more names
and members. Only the method that sets the class up may have changed. -/
structure Extends (d : Draft) (new : List Stmt) (d' : Draft) : Prop where
  frames : d'.frames = extendTop new d.frames
  names : d.names.Le d'.names
  kept : ∀ m ∈ d.target.members, m.name ≠ "init" → m ∈ d'.target.members
  known : ∀ name ∈ d.target.names, name ∈ d'.target.names
  className : d'.target.name = d.target.name
  tidy : Tidy d'

theorem Extends.refl (hd : Tidy d) : Extends d [] d :=
  ⟨by simp, .refl _, fun _ h _ => h, fun _ h => h, rfl, hd⟩

theorem Extends.trans (h : Extends d new d') (h' : Extends d' new' d'') :
    Extends d (new ++ new') d'' where
  frames := by rw [h'.frames, h.frames, extendTop_extendTop]
  names := h.names.trans h'.names
  kept := fun m hm hne => h'.kept m (h.kept m hm hne) hne
  known := fun name hn => h'.known name (h.known name hn)
  className := h'.className.trans h.className
  tidy := h'.tidy

/-- A draft that differs in its frames and in what is pending only. -/
theorem Extends.of_eq (hd : Tidy d) (hf : d'.frames = extendTop new d.frames)
    (hn : d'.names = d.names) (ht : d'.target = d.target) (hc : d'.hasCall → d'.buffer ≠ "") :
    Extends d new d' where
  frames := hf
  names := by rw [hn]; exact .refl _
  kept := by rw [ht]; exact fun _ h _ => h
  known := by rw [ht]; exact fun _ h => h
  className := by rw [ht]
  tidy := ⟨by rw [ht, hn]; exact hd.toNamed, by rw [hn]; exact hd.renamed, hc⟩

@[simp] theorem frames_add (d : Draft) (stmt : Stmt) :
    (d.add stmt).frames = extendTop [stmt] d.frames := by
  unfold Draft.add
  cases h : d.frames <;> simp [extendTop, Frame.add, h]

theorem add_eq (d : Draft) (stmt : Stmt) : d.add stmt = { d with frames := (d.add stmt).frames } := by
  unfold Draft.add
  split <;> rfl

theorem Extends.add (hd : Tidy d) (stmt : Stmt) : Extends d [stmt] (d.add stmt) := by
  rw [add_eq]
  exact .of_eq hd (frames_add d stmt) rfl rfl hd.call

theorem add_eq_extendTop (d : Draft) (stmt : Stmt) :
    d.add stmt = { d with frames := extendTop [stmt] d.frames } := by
  rw [add_eq, frames_add]

theorem runs_addAll {stmts : List Stmt} {u : Unit} :
    Runs (addAll stmts) d u d' ↔ d' = { d with frames := extendTop stmts d.frames } := by
  induction stmts generalizing d with
  | nil => simp [addAll]
  | cons stmt rest ih => simp [addAll, add, ih, add_eq_extendTop]

theorem Extends.addAll (hd : Tidy d) (stmts : List Stmt) :
    Extends d stmts { d with frames := extendTop stmts d.frames } := .of_eq hd rfl rfl rfl hd.call

def Draft.flushed (d : Draft) : List Stmt := if d.buffer = "" then [] else [d.pending]

theorem flush_eq (d : Draft) : d.flush = { d with
    frames := extendTop d.flushed d.frames, buffer := "",
    hasCall := if d.buffer = "" then d.hasCall else false } := by
  unfold Draft.flush Draft.flushed
  split
  · next h => simp [← h]
  · rw [add_eq, frames_add]

@[simp] theorem buffer_flush (d : Draft) : d.flush.buffer = "" := by
  rw [flush_eq]

theorem Extends.flush (hd : Tidy d) : Extends d d.flushed d.flush := by
  rw [flush_eq]
  refine .of_eq hd rfl rfl rfl ?_
  dsimp only
  split
  · next h => exact fun hc => absurd h (hd.call hc)
  · simp

/-! Steps that leave the members alone. -/

theorem extends_put (hd : Tidy d) {markup : String} {u : Unit} (h : Runs (put markup) d u d') :
    Extends d [] d' := by
  rw [runs_modify.1 h]
  refine .of_eq hd (by simp) rfl rfl fun hcall => ?_
  simp [hd.call hcall]

theorem extends_names (hd : Tidy d) {names : Names} (hle : d.names.Le names)
    (hr : Script.Renamed names) : Extends d [] { d with names } where
  frames := by simp
  names := hle
  kept := fun _ h _ => h
  known := fun _ h => h
  className := rfl
  tidy := ⟨hd.toNamed.mono hle, hr, hd.call⟩

theorem extends_fresh (hd : Tidy d) (stem : String) :
    Extends d [] { d with names := (d.names.fresh stem).2 } :=
  extends_names hd (d.names.le_fresh stem) hd.renamed

theorem runs_freshName {stem name : String} :
    Runs (freshName stem) d name d' ↔
      name = (d.names.fresh stem).1 ∧ d' = { d with names := (d.names.fresh stem).2 } := by
  rw [freshName, runs_modifyGet]
  exact Prod.mk.injEq _ _ _ _ ▸ Iff.rfl

theorem runs_declare {type : Ty} {stem : String} {init e : Expr} :
    Runs (declare type stem init) d e d' ↔ e = .variableRef type (d.names.fresh stem).1 ∧
      d' = Draft.add { d with names := (d.names.fresh stem).2 }
        (.var { type, name := (d.names.fresh stem).1, init := some init }) := by
  simp only [declare, runs_bind, runs_freshName, add, runs_modify, runs_pure]
  constructor
  · rintro ⟨_, _, ⟨rfl, rfl⟩, _, _, rfl, rfl, rfl⟩
    exact ⟨rfl, rfl⟩
  · rintro ⟨rfl, rfl⟩
    exact ⟨_, _, ⟨rfl, rfl⟩, (), _, rfl, rfl, rfl⟩

/-! Members. -/

theorem ne_empty_of_taken {n : Names} {name : String} (h : n.Taken name) : name ≠ "" := by
  rintro rfl
  exact Names.not_taken_of_unnumbered (by decide) h

theorem ne_init_of_taken {n : Names} {name : String} (h : n.Taken name) : name ≠ "init" := by
  rintro rfl
  exact Names.not_taken_of_unnumbered (by decide) h

theorem Tidy.not_mem (hd : Tidy d) {n : Names} {name : String} (hn : n.Taken name)
    (h : ¬ d.names.Taken name) : name ∉ d.target.names := by
  intro hmem
  rcases hd.given name hmem with hf | ht
  · exact not_taken_of_fixed hf hn
  · exact h ht

theorem Tidy.name_ne (hd : Tidy d) {n : Names} {name : String} (hn : n.Taken name)
    (h : ¬ d.names.Taken name) {m : Member} (hm : m ∈ d.target.members) : m.name ≠ name := by
  rintro rfl
  cases hname : m.name? with
  | none =>
      cases m with
      | constructor => exact ne_empty_of_taken hn rfl
      | _ => cases hname
  | some name =>
      obtain rfl := Member.name?_eq_some hname
      exact hd.not_mem hn h (ClassOf.mem_names_of_mem hm hname)

theorem Extends.addMembers (hd : Tidy d) {names : Names} {ms : List Member} (hle : d.names.Le names)
    (hr : Script.Renamed names) (h : Script.NewNames d.names names (ms.filterMap Member.name?)) :
    Extends d [] { d with names, target := { d.target with members := d.target.members ++ ms } } where
  frames := by simp
  names := hle
  kept := fun _ hm _ => List.mem_append_left _ hm
  known := by
    intro name hn
    simp only [ClassOf.names, List.filterMap_append]
    exact List.mem_append_left _ hn
  className := rfl
  tidy := by
    refine ⟨⟨?_, ?_, ?_⟩, hr, hd.call⟩
    · simp only [ClassOf.Distinct, ClassOf.names, List.filterMap_append]
      refine List.nodup_append.2 ⟨hd.distinct, h.distinct, ?_⟩
      rintro a ha b hb rfl
      exact hd.not_mem (h.taken a hb) (h.notTaken a hb) ha
    · intro name hn
      simp only [ClassOf.names, List.filterMap_append] at hn
      rcases List.mem_append.1 hn with hn | hn
      · exact (hd.given name hn).imp_right fun ht => ht.mono hle
      · exact Or.inr (h.taken name hn)
    · intro m hm hname
      rcases List.mem_append.1 hm with hm | hm
      · exact hd.init m hm hname
      · exact absurd (h.taken "init" (List.mem_filterMap.2 ⟨m, hm, hname⟩))
          (Names.not_taken_of_unnumbered (by decide))

/-- A new name is new, and no other is given out with it. -/
theorem newNames_fresh (n : Names) {stem : String} (hs : IsStem stem) :
    Script.NewNames n (n.fresh stem).2 [(n.fresh stem).1] := by
  refine ⟨by simp, ?_, ?_⟩
  · intro name hn
    rw [List.mem_singleton.1 hn]
    exact Names.taken_fresh hs
  · intro name hn
    rw [List.mem_singleton.1 hn]
    exact Names.not_taken_fresh hs

theorem Extends.addFresh (hd : Tidy d) {stem : String} (hs : IsStem stem) {m : Member}
    (hm : m.name? = some (d.names.fresh stem).1) :
    Extends d [] { d with names := (d.names.fresh stem).2, target := d.target.add m } := by
  refine Extends.addMembers hd (d.names.le_fresh stem) hd.renamed ?_
  simpa [List.filterMap, hm] using newNames_fresh d.names hs

/-! Frames. -/

def Draft.opened (d : Draft) (ofMethod : Bool) : Draft :=
  { d with frames := { ofMethod } :: d.frames }

def Draft.closedTo (d : Draft) (frames : List Frame) : Draft := { d.flush with frames }

theorem runs_inFrame {ofMethod : Bool} {body : Build Unit} {stmts : List Stmt} :
    Runs (inFrame ofMethod body) d stmts d' ↔
      ∃ e, Runs body (d.opened ofMethod) () e ∧ (stmts, d') = e.flush.close := by
  rw [inFrame_eq]
  simp only [runs_bind, runs_modify, runs_modifyGet, flush]
  constructor
  · rintro ⟨_, _, rfl, _, e, he, _, _, rfl, h⟩
    exact ⟨e, he, h⟩
  · rintro ⟨e, he, h⟩
    exact ⟨(), _, rfl, (), e, he, (), _, rfl, h⟩

theorem Tidy.opened (hd : Tidy d) (ofMethod : Bool) : Tidy (d.opened ofMethod) :=
  ⟨hd.toNamed, hd.renamed, hd.call⟩

theorem close_of_frames {e : Draft} {ofMethod : Bool} (h : e.frames = extendTop new (d.opened ofMethod).frames) :
    e.flush.close = (new ++ e.flushed, e.closedTo d.frames) := by
  have hf : e.flush.frames = { ofMethod, stmts := new ++ e.flushed } :: d.frames := by
    rw [flush_eq, h]
    simp [Draft.opened, extendTop]
  unfold Draft.close
  rw [hf]
  rfl

theorem close_of_extends {e : Draft} {ofMethod : Bool} (h : Extends (d.opened ofMethod) new e) :
    e.flush.close = (new ++ e.flushed, e.closedTo d.frames) := close_of_frames h.frames

theorem extends_closedTo {e : Draft} {ofMethod : Bool} (h : Extends (d.opened ofMethod) new e) :
    Extends d [] (e.closedTo d.frames) := by
  have hflush := Extends.flush h.tidy
  exact ⟨by simp [Draft.closedTo], h.names.trans hflush.names,
    fun m hm hne => hflush.kept m (h.kept m hm hne) hne,
    fun name hn => hflush.known name (h.known name hn), hflush.className.trans h.className,
    ⟨hflush.tidy.toNamed, hflush.tidy.renamed, hflush.tidy.call⟩⟩

/-! Methods that render. -/

theorem isStem_render : IsStem "render_" := ⟨"render", rfl⟩

theorem isStem_view : IsStem "view_" := ⟨"view", rfl⟩

def renderMethod (name : String) (body : List Stmt) : Method where
  access := .classOnly
  returns := .void
  name
  params := renderParams
  body
  throws := [.ioException]

def Draft.withMethod (d : Draft) : Draft :=
  { d with
    names := (d.names.fresh "render_").2
    target := d.target.add (.method (renderMethod (d.names.fresh "render_").1 [])) }

def Draft.setBody (d : Draft) (name : String) (stmts : List Stmt) : Draft :=
  { d with target := d.target.modifyMethod name fun m => { m with body := stmts } }

theorem runs_buildRenderMethod {body : Build Unit} {name : String} :
    Runs (buildRenderMethod body) d name d' ↔
      ∃ stmts e, Runs (inFrame true body) d.withMethod.flush stmts e ∧
        name = (d.names.fresh "render_").1 ∧ d' = e.setBody name stmts := by
  unfold buildRenderMethod
  simp only [runs_bind, runs_freshName, addMember, flush, runs_modify, runs_pure]
  constructor
  · rintro ⟨_, _, ⟨rfl, rfl⟩, _, _, rfl, _, _, rfl, stmts, e, he, _, _, rfl, rfl, rfl⟩
    exact ⟨stmts, e, he, rfl, rfl⟩
  · rintro ⟨stmts, e, he, rfl, rfl⟩
    exact ⟨_, _, ⟨rfl, rfl⟩, (), _, rfl, (), _, rfl, stmts, e, he, (), _, rfl, rfl, rfl⟩

@[simp] theorem target_flush (d : Draft) : d.flush.target = d.target := by
  rw [flush_eq]

theorem mem_names_withMethod (d : Draft) :
    (d.names.fresh "render_").1 ∈ d.withMethod.target.names := by
  simp [Draft.withMethod, Member.name?, Member.name, renderMethod]

theorem tidy_withMethod (hd : Tidy d) : Tidy d.withMethod :=
  (Extends.addFresh hd isStem_render
    (m := .method (renderMethod (d.names.fresh "render_").1 [])) rfl).tidy

theorem extends_withMethod (hd : Tidy d) : Extends d d.flushed d.withMethod.flush := by
  have h := Extends.addFresh hd isStem_render
    (m := .method (renderMethod (d.names.fresh "render_").1 [])) rfl
  exact h.trans (Extends.flush h.tidy)

/-- Changing a method changes that method only. -/
theorem extends_modifyMethod {e : Draft} {name : String} {f : Method → Method}
    (hf : ∀ m, (f m).name = m.name) (h : Extends d new e)
    (hname : ∀ m ∈ d.target.members, m.name ≠ "init" → m.name ≠ name) :
    Extends d new { e with target := e.target.modifyMethod name f } where
  frames := h.frames
  names := h.names
  kept := fun m hm hne => ClassOf.mem_modifyFirst_of_ne (h.kept m hm hne) (hname m hm hne)
  known := fun name' hn => by
    rw [ClassOf.names_modifyMethod hf]
    exact h.known name' hn
  className := h.className
  tidy := by
    have hnames := ClassOf.names_modifyMethod hf e.target name
    refine ⟨⟨?_, ?_, ?_⟩, h.tidy.renamed, h.tidy.call⟩
    · rw [ClassOf.Distinct, hnames]
      exact h.tidy.distinct
    · rw [hnames]
      exact h.tidy.given
    · intro m hm hinit
      rcases ClassOf.mem_of_mem_modifyFirst hm with hm | ⟨m', -, -, rfl⟩
      · exact h.tidy.init m hm hinit
      · simpa [Member.name?, Member.name, Member.isMethod] using hinit

theorem extends_setBody {e : Draft} {name : String} (stmts : List Stmt) (h : Extends d new e)
    (hname : ∀ m ∈ d.target.members, m.name ≠ name) : Extends d new (e.setBody name stmts) :=
  extends_modifyMethod (fun _ => rfl) h fun m hm _ => hname m hm

/-- What building a method leaves behind: the method under a new name, with the statements that were
built. -/
theorem extends_buildRenderMethod (hd : Tidy d) {body : Build Unit} {name : String}
    (h : Runs (buildRenderMethod body) d name d') :
    name = (d.names.fresh "render_").1 ∧ ∃ e, Runs body (d.withMethod.flush.opened true) () e ∧
      ∀ new, Extends (d.withMethod.flush.opened true) new e →
        Extends d d.flushed d' ∧ .method (renderMethod name (new ++ e.flushed)) ∈ d'.target.members ∧
        d' = (e.closedTo d.withMethod.flush.frames).setBody name (new ++ e.flushed) := by
  obtain ⟨stmts, c, hin, rfl, rfl⟩ := runs_buildRenderMethod.1 h
  obtain ⟨e, he, hclose⟩ := runs_inFrame.1 hin
  refine ⟨rfl, e, he, fun new hext => ?_⟩
  rw [close_of_extends hext] at hclose
  cases hclose
  have hmethod := extends_withMethod hd
  have hclosed := extends_closedTo hext
  refine ⟨?_, ?_, rfl⟩
  · rw [← List.append_nil d.flushed]
    refine extends_setBody _ (hmethod.trans hclosed) fun m hm => ?_
    exact hd.name_ne (Names.taken_fresh isStem_render) (Names.not_taken_fresh isStem_render) hm
  · have hmem : .method (renderMethod (d.names.fresh "render_").1 []) ∈
        (e.closedTo d.withMethod.flush.frames).target.members := by
      refine hclosed.kept _ ?_ ?_
      · rw [flush_eq]
        exact List.mem_append_right _ (List.mem_singleton.2 rfl)
      · exact ne_init_of_taken (Names.taken_fresh isStem_render)
    exact ClassOf.mem_modifyFirst_self hclosed.tidy.distinct hmem

def asRender (m : Method) : Method :=
  { m with name := "render", access := .subclasses, overrides := true }

def Draft.promoted (d : Draft) (name : String) : Draft :=
  { d with target := d.target.modifyMethod name asRender }

theorem runs_promote {name : String} {u : Unit} :
    Runs (promote name) d u d' ↔ d' = d.promoted name := runs_modify

theorem Tidy.ne_render (hd : Tidy d) : "render" ∉ d.target.names := by
  intro h
  rcases hd.given _ h with hf | ht
  · simp [fixedNames] at hf
  · exact Names.not_taken_of_unnumbered (by decide) ht

theorem Tidy.distinct_promoted (hd : Tidy d) (name : String) : (d.promoted name).target.Distinct :=
  ClassOf.nodup_rename (f := asRender) (fun _ => rfl) hd.distinct hd.ne_render

theorem tidy_view (package : Option String) (name : String) :
    Tidy { target := viewClass package name } := by
  have hnames : (viewClass package name).names = [] := rfl
  refine ⟨⟨?_, ?_, ?_⟩, ?_, by simp⟩
  · rw [ClassOf.Distinct, hnames]
    exact List.nodup_nil
  · rw [hnames]
    simp
  · simp [viewClass, Member.name?]
  · intro name given h
    cases h

/-! Parts and fields. -/

theorem isStem_part : IsStem "part_" := ⟨"part", rfl⟩

def emptyPart (className partName : String) : ClassDecl :=
  (partClass className).add (.method {
    access := .everyone, returns := .string, name := "getPartName", params := []
    body := [.ret (some (.text partName))], overrides := true })

def Draft.inPart (d : Draft) (partName : String) : Draft :=
  { d with names := {}, target := emptyPart (d.names.fresh "part_").1 partName }

def Draft.withPart (d e : Draft) : Draft :=
  { e with target := d.target.add (.nested e.target), names := (d.names.fresh "part_").2 }

theorem runs_buildPart {p : PartOf (Build Unit)} {name : String} :
    Runs (buildPart p) d name d' ↔ name = (d.names.fresh "part_").1 ∧
      ∃ render e, Runs (buildRenderMethod (runAll p.children)) (d.inPart p.name) render e ∧
        d' = d.withPart (e.promoted render) := by
  unfold buildPart promote
  simp only [runs_bind, runs_freshName, runs_get, runs_set, runs_modify, runs_pure]
  constructor
  · rintro ⟨_, _, ⟨rfl, rfl⟩, _, _, ⟨rfl, rfl⟩, _, _, rfl, render, e, hr, _, _, rfl, _, _, rfl, rfl, rfl⟩
    exact ⟨rfl, render, e, hr, rfl⟩
  · rintro ⟨rfl, render, e, hr, rfl⟩
    exact ⟨_, _, ⟨rfl, rfl⟩, _, _, ⟨rfl, rfl⟩, (), _, rfl, render, e, hr, (), _, rfl, (), _, rfl, rfl, rfl⟩

theorem tidy_inPart (hd : Tidy d) (partName : String) : Tidy (d.inPart partName) := by
  have hnames : (d.inPart partName).target.names = ["getPartName"] := rfl
  refine ⟨⟨?_, ?_, ?_⟩, ?_, hd.call⟩
  · rw [ClassOf.Distinct, hnames]
    simp
  · rw [hnames]
    exact fun name hn => Or.inl (List.mem_cons_of_mem _ hn)
  · simp [Draft.inPart, emptyPart, partClass, ClassOf.add, Member.name?, Member.name]
  · intro name given h
    cases h

theorem extends_withPart (hd : Tidy d) {partName render : String} {e : Draft} {new : List Stmt}
    (h : Extends (d.inPart partName) new e) : Extends d new (d.withPart (e.promoted render)) := by
  have hname : (e.promoted render).target.name = (d.names.fresh "part_").1 := h.className
  have hadd := Extends.addFresh hd isStem_part (m := .nested (e.promoted render).target)
    (congrArg some hname)
  exact ⟨h.frames, hadd.names, hadd.kept, hadd.known, hadd.className,
    ⟨hadd.tidy.toNamed, hadd.tidy.renamed, h.tidy.call⟩⟩

def initMethod (body : List Stmt) : Method where
  access := .subclasses
  returns := .void
  name := "init"
  params := []
  body
  overrides := true

def Draft.withInit (d : Draft) : Draft :=
  if (d.target.findMethod? "init").isNone then
    { d with target := d.target.add (.method (initMethod [])) }
  else d

def Draft.addInit (d : Draft) (stmt : Stmt) : Draft :=
  { d.withInit with
    target := d.withInit.target.modifyMethod "init" fun m => { m with body := m.body ++ [stmt] } }

theorem runs_addToInit {stmt : Stmt} {u : Unit} :
    Runs (addToInit stmt) d u d' ↔ d' = d.addInit stmt := by
  unfold addToInit Draft.addInit Draft.withInit
  simp only [runs_bind, runs_get, addMember]
  constructor
  · rintro ⟨_, _, ⟨rfl, rfl⟩, h⟩
    split at h
    · next hn =>
        simp only [runs_bind, runs_modify] at h
        obtain ⟨_, _, rfl, rfl⟩ := h
        rw [if_pos hn]
        rfl
    · next hn =>
        rw [if_neg hn]
        exact runs_modify.1 h
  · rintro rfl
    refine ⟨d, d, ⟨rfl, rfl⟩, ?_⟩
    split
    · next hn =>
        simp only [runs_bind, runs_modify]
        exact ⟨(), _, rfl, rfl⟩
    · exact runs_modify.2 rfl

theorem Tidy.no_init (hd : Tidy d) (h : (d.target.findMethod? "init").isNone) :
    "init" ∉ d.target.names := by
  intro hn
  obtain ⟨m, hm, hname⟩ := ClassOf.mem_names.1 hn
  have hmethod := hd.init m hm hname
  cases m with
  | method m =>
      have hmn : m.name = "init" := Member.name?_eq_some hname
      have := ClassOf.findMethod?_of_mem hd.distinct hm
      rw [hmn] at this
      simp [this] at h
  | field | constructor | nested => cases hmethod

theorem extends_withInit (hd : Tidy d) : Extends d [] d.withInit := by
  unfold Draft.withInit
  split
  · next h =>
      have hnames : (d.target.add (.method (initMethod []))).names = d.target.names ++ ["init"] := by
        rw [ClassOf.names_add]
        rfl
      refine ⟨by simp, .refl _, fun m hm _ => List.mem_append_left _ hm, ?_, rfl,
        ⟨⟨?_, ?_, ?_⟩, hd.renamed, hd.call⟩⟩
      · intro name hn
        rw [hnames]
        exact List.mem_append_left _ hn
      · rw [ClassOf.Distinct, hnames]
        refine List.nodup_append.2 ⟨hd.distinct, by simp, ?_⟩
        rintro a ha b hb rfl
        rw [List.mem_singleton.1 hb] at ha
        exact hd.no_init h ha
      · intro name hn
        rw [hnames] at hn
        rcases List.mem_append.1 hn with hn | hn
        · exact hd.given name hn
        · rw [List.mem_singleton.1 hn]
          exact Or.inl List.mem_cons_self
      · intro m hm hname
        rcases List.mem_append.1 hm with hm | hm
        · exact hd.init m hm hname
        · rw [List.mem_singleton.1 hm]
          rfl
  · exact .refl hd

theorem extends_addInit (hd : Tidy d) (stmt : Stmt) : Extends d [] (d.addInit stmt) :=
  extends_modifyMethod (fun _ => rfl) (extends_withInit hd) fun _ _ hne => hne

/-! Code blocks. -/

def Draft.afterCode (d : Draft) (b : CodeBlock) (added : List Method) (hybrid : Bool) : Draft :=
  { d with
    names := (Script.compile d.names (clientCode b)).2
    target := { d.target with members := d.target.members ++ added.map .method }
    needsExtras := hybrid || d.needsExtras }

/-- A block is refused with nothing but its names taken, or it gives the code of its first method. -/
theorem runs_fragment? {b : CodeBlock} {canDefer : Bool} {r : Except Error Fragment}
    (h : Runs (fragment? b canDefer) d r d') :
    (∃ e, r = .error e ∧ d' = d.afterCode b [] false ∧
      ∀ t, (Script.compile d.names (clientCode b)).1 = .ok t → t.methods = []) ∨
    ∃ t m rest, (Script.compile d.names (clientCode b)).1 = .ok t ∧ t.methods = m :: rest ∧
      r = .ok { expr := (inlined m rest).1, hybrid := t.hasExtras && canDefer } ∧
      d' = d.afterCode b (inlined m rest).2 (t.hasExtras && canDefer) := by
  unfold fragment? at h
  simp only [runs_bind, runs_get, runs_set] at h
  obtain ⟨_, _, ⟨rfl, rfl⟩, _, _, rfl, h⟩ := h
  split at h
  · next r hr =>
      obtain ⟨rfl, rfl⟩ := runs_pure.1 h
      refine Or.inl ⟨_, rfl, by simp [Draft.afterCode], fun t ht => ?_⟩
      rw [hr] at ht
      cases ht
  · next t ht =>
      split at h
      · next hm =>
          obtain ⟨rfl, rfl⟩ := runs_pure.1 h
          refine Or.inl ⟨_, rfl, by simp [Draft.afterCode], fun t' ht' => ?_⟩
          rw [ht] at ht'
          cases ht'
          exact hm
      · next m rest hm =>
          refine Or.inr ⟨t, m, rest, ht, hm, ?_⟩
          simp only [runs_bind, addMethods, runs_modify] at h
          obtain ⟨_, _, rfl, h⟩ := h
          split at h
          · next hh =>
              simp only [runs_bind, runs_modify, runs_pure] at h
              obtain ⟨_, _, rfl, rfl, rfl⟩ := h
              exact ⟨rfl, by simp [Draft.afterCode, hh]⟩
          · next hh =>
              obtain ⟨rfl, rfl⟩ := runs_pure.1 h
              exact ⟨rfl, by simp [Draft.afterCode, hh]⟩

theorem name?_map_method (ms : List Method) :
    (ms.map Member.method).filterMap Member.name? = ms.map (·.name) := by
  induction ms with
  | nil => rfl
  | cons m rest ih => simp [Member.name?, Member.name, ih]

theorem newNames_sublist {n n' : Names} {names names' : List String}
    (h : Script.NewNames n n' names) (hs : names'.Sublist names) : Script.NewNames n n' names' :=
  ⟨h.distinct.sublist hs, fun name hn => h.taken name (hs.subset hn),
    fun name hn => h.notTaken name (hs.subset hn)⟩

theorem sublist_inlined (m : Method) (rest : List Method) : (inlined m rest).2.Sublist (m :: rest) := by
  unfold inlined
  split
  · exact List.sublist_cons_self m rest
  · exact List.Sublist.refl _

theorem extends_afterCode (hd : Tidy d) (b : CodeBlock) {added : List Method} (hybrid : Bool)
    (h : Script.NewNames d.names (Script.compile d.names (clientCode b)).2 (added.map (·.name))) :
    Extends d [] (d.afterCode b added hybrid) := by
  rw [← name?_map_method] at h
  have hadd := Extends.addMembers hd (Script.le_compile d.names (clientCode b))
    (Script.renamed_compile hd.renamed _) h
  exact ⟨hadd.frames, hadd.names, hadd.kept, hadd.known, hadd.className,
    ⟨hadd.tidy.toNamed, hadd.tidy.renamed, hadd.tidy.call⟩⟩

theorem extends_fragment? (hd : Tidy d) {b : CodeBlock} {canDefer : Bool}
    {r : Except Error Fragment} (h : Runs (fragment? b canDefer) d r d') : Extends d [] d' := by
  obtain ⟨e, -, rfl, -⟩ | ⟨t, m, rest, ht, hm, -, rfl⟩ := runs_fragment? h
  · exact extends_afterCode hd b false ⟨by simp, by simp, by simp⟩
  · refine extends_afterCode hd b _ ?_
    have hnew := Script.compile_newNames ht
    rw [hm] at hnew
    exact newNames_sublist hnew ((sublist_inlined m rest).map _)

theorem runs_requiredExpr {b : CodeBlock} {e : Expr} :
    Runs (requiredExpr b) d e d' ↔ ∃ f, Runs (fragment? b false) d (.ok f) d' ∧ e = f.expr := by
  unfold requiredExpr
  rw [runs_bind]
  constructor
  · rintro ⟨r, d₁, hr, h⟩
    cases r with
    | error e => exact absurd h runs_throw
    | ok f =>
        obtain ⟨rfl, rfl⟩ := runs_pure.1 h
        exact ⟨f, hr, rfl⟩
  · rintro ⟨f, hr, rfl⟩
    exact ⟨.ok f, d', hr, runs_pure.2 ⟨rfl, rfl⟩⟩

def Draft.withMembers (d : Draft) (names : Names) (ms : List Member) : Draft :=
  { d with names, target := { d.target with members := d.target.members ++ ms } }

theorem runs_arguments? (hd : Tidy d) {args : List (Option CodeBlock × Param)}
    {r : Except Error (List Expr)} (h : Runs (arguments? args) d r d') :
    ∃ names ms, d' = d.withMembers names ms ∧ d.names.Le names ∧ Script.Renamed names := by
  induction args generalizing d r with
  | nil =>
      obtain ⟨-, rfl⟩ := runs_pure.1 h
      exact ⟨d'.names, [], by simp [Draft.withMembers], .refl _, hd.renamed⟩
  | cons a rest ih =>
      obtain ⟨b, param⟩ := a
      cases b with
      | none =>
          obtain ⟨r', e, hr, h⟩ := runs_bind.1 h
          obtain ⟨-, rfl⟩ := runs_pure.1 h
          exact ih hd hr
      | some b =>
          obtain ⟨r', e, hf, h⟩ := runs_bind.1 h
          have hext := extends_fragment? hd hf
          obtain ⟨added, he⟩ : ∃ added, e = d.afterCode b added false := by
            obtain ⟨-, -, he, -⟩ | ⟨t, m, rest, -, -, -, he⟩ := runs_fragment? hf
            · exact ⟨_, he⟩
            · exact ⟨_, by rw [he, Bool.and_false]⟩
          have hsame : e = d.withMembers e.names (added.map .method) := by
            rw [he]
            simp [Draft.afterCode, Draft.withMembers]
          cases r' with
          | error err =>
              obtain ⟨-, rfl⟩ := runs_pure.1 h
              exact ⟨_, _, hsame, hext.names, hext.tidy.renamed⟩
          | ok f =>
              obtain ⟨r', e', hr, h⟩ := runs_bind.1 h
              obtain ⟨-, rfl⟩ := runs_pure.1 h
              obtain ⟨names, ms, rfl, hle, hrn⟩ := ih hext.tidy hr
              refine ⟨names, added.map .method ++ ms, ?_, hext.names.trans hle, hrn⟩
              rw [hsame]
              simp [Draft.withMembers]

theorem take_withMembers (d : Draft) (names : Names) (ms : List Member) :
    { d.withMembers names ms with
      target := { (d.withMembers names ms).target with
        members := (d.withMembers names ms).target.members.take d.target.members.length } } =
      { d with names } := by
  simp [Draft.withMembers]

end TwinView.Server
