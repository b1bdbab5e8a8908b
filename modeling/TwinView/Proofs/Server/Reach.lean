import TwinView.Proofs.Server.Appending

/-!
What a build comes to. Wherever a node is built, the node only appends to the draft; wherever a frame is opened,
no markup waits. A probe that lets all drafts under way pass never ends a build, so a draft in which a build can be
stopped is under way.
-/

namespace TwinView.Server

open Code

variable {α β : Type} {s : Settings} {i j : Prop} {d d' : Draft}

/-- The probe ends no build in a draft under way, unless a frame is opened over markup. -/
structure Probe.Passes (p : Probe) : Prop where
  node : ∀ d, Reached d → p.node d = none
  frame : ∀ d, Reached d → d.buffer = "" → p.frame d = none

theorem noProbe_passes : noProbe.Passes := ⟨fun _ _ => rfl, fun _ _ _ => rfl⟩

theorem Mirrors.stopped {stop : Draft → Option Error} {x y : Build α} (h : Mirrors i y x j)
    (hstop : ∀ d, Reached d → (i → d.buffer = "") → stop d = none) :
    Mirrors i (do stopBy stop; y) x j where
  run d hd hi := by
    rw [← h.run d hd hi, StateT.run_bind]
    simp [stopBy, hstop d hd hi]
  appends := h.appends

theorem mirrors_visit {p : Probe} (hp : p.Passes) {x y : Build Unit} (h : Mirrors False y x False) :
    Mirrors False (visit y) (@visit noProbe x) False := by
  rw [show @visit noProbe x = x from visit_eq x]
  exact h.stopped fun d hd _ => hp.node d hd

theorem mirrors_inFrame {p : Probe} (hp : p.Passes) {ofMethod : Bool} {x y : Build Unit} (h : Mirrors True y x j) :
    Mirrors True (inFrame ofMethod y) (@inFrame noProbe ofMethod x) True := by
  refine Mirrors.stopped ?_ fun d hd hi => hp.frame d hd (hi trivial)
  refine h.inside (·.opened ofMethod) (fun _ _ c => c.flush.close) (fun _ => rfl) (fun _ => rfl)
    (fun d hd hi => ⟨hd.elsewhere rfl rfl, hi⟩) fun d _ c _ happ hc _ => ?_
  obtain ⟨hclosed, hbuffer, hnames, htarget⟩ := happ.closed
  exact ⟨hclosed, hc.elsewhere hnames htarget, fun _ => hbuffer⟩

/-- The mode of the text in an element is the one outside again behind it. -/
theorem mirrors_inContent {e : Element} {x y : Build Unit} (h : Mirrors False y x False) :
    Mirrors False (inContent e y) (inContent e x) False := by
  refine h.inside (fun d => { d with mode := contentMode e d.mode }) (fun d _ c => ((), { c with mode := d.mode }))
    (fun _ => rfl) (fun _ => rfl) (fun d hd _ => ⟨hd.elsewhere rfl rfl, False.elim⟩) fun d _ c _ happ hc _ => ?_
  exact ⟨⟨happ.frames, rfl, happ.target, happ.members⟩, hc.elsewhere rfl rfl, False.elim⟩

/-- The body of a method is set after it has been built, but the method is new. -/
theorem mirrors_buildRenderMethod {p : Probe} (hp : p.Passes) {x y : Build Unit} (h : Mirrors True y x j) :
    Mirrors i (buildRenderMethod y) (@buildRenderMethod noProbe x) True := by
  refine (mirrors_inFrame hp h).inside (·.withMethod.flush)
    (fun d stmts c => ((d.names.fresh "render_").1, c.setBody (d.names.fresh "render_").1 stmts))
    (fun _ => rfl) (fun _ => rfl)
    (fun d hd _ => ⟨?_, fun _ => buffer_flush _⟩) fun d stmts c hd happ hc hbuffer => ⟨?_, hc.setBody _ _, ?_⟩
  · exact (hd.freshMember isStem_render rfl).elsewhere (by rw [flush_eq]; rfl) (target_flush _)
  · exact ((OnlyAppends.withMethod d).trans happ).modifyMethod _ (hd.not_isMethod isStem_render)
  · exact hbuffer

/-- The content of a part goes to a class of its own, and the class around it only gets that class. -/
theorem mirrors_buildPart [Probe] {part part' : PartOf (Build Unit)} {name : String} (hname : part.name = name)
    (hname' : part'.name = name) (h : Mirrors False (buildRenderMethod (runAll part'.children))
      (@buildRenderMethod noProbe (runAll part.children)) True) :
    Mirrors i (buildPart part') (@buildPart noProbe part) True := by
  subst hname
  refine h.inside (·.inPart part.name)
    (fun d render c => ((d.names.fresh "part_").1, d.withPart (c.promoted render)))
    (fun _ => rfl) (fun d => ?_) (fun d hd _ => ⟨?_, False.elim⟩)
    fun d render c hd happ hc hbuffer => ⟨?_, ?_, hbuffer⟩
  · rw [← hname']
    rfl
  · exact (Reached.part (d.names.fresh "part_").1 part.name).elsewhere rfl rfl
  · exact ⟨happ.frames, happ.mode, rfl, .append _ _⟩
  · have hclass : (Member.nested (c.promoted render).target).name = (d.names.fresh "part_").1 :=
      congrArg ClassOf.name happ.target
    exact (hd.freshMember isStem_part hclass).elsewhere rfl rfl

theorem orderly_tryArguments {args : List (Option CodeBlock × Param)} (h : Orderly i (arguments? args) i) :
    Orderly i (tryArguments args) i :=
  .of fun d r d' hd hi hr => by
    obtain ⟨c, hargs, hd'⟩ := runs_tryArguments hr
    obtain ⟨happ, hc, hbuffer⟩ := h.appends _ r c hd hi hargs
    obtain rfl | rfl := hd'
    · exact ⟨happ, hc, hbuffer⟩
    · exact ⟨⟨happ.frames, happ.mode, by rw [happ.target], happ.members.take⟩, hc.takenBack _, hbuffer⟩

/-- Whatever a builder is made of, it only appends, and under a probe that lets drafts under way pass it does the
same. -/
theorem Made.mirrors {w : Site} {Q : α → Prop} {x : Probed α} {p : Probe} (hp : p.Passes) (h : Made w i x Q j) :
    Mirrors i (x p) (x noProbe) j := by
  induction h with
  | result => exact .result _
  | bind hx _ ihx ihf => exact ihx.bindRuns fun _ a _ hr => ihf a (hx.generates hr).1
  | weaken _ hi _ hj ih => exact ih.weaken hi hj
  | throw => exact .throw
  | get => exact orderly_get
  | put markup => exact orderly_put markup
  | flush => exact orderly_flush
  | note hf =>
      refine orderly_note fun d => ?_
      obtain ⟨_, _, _, hf⟩ := hf d
      rw [hf]
      exact ⟨rfl, rfl, rfl, rfl, rfl⟩
  | add => exact orderly_add _
  | freshName stem => exact orderly_freshName stem
  | declare type stem init => exact orderly_declare type stem init
  | addToInit => exact orderly_addToInit _
  | newField => exact orderly_newField
  | fragment? b canDefer => exact orderly_fragment? b canDefer
  | tryArguments _ ih => exact orderly_tryArguments ih
  | inFrame _ _ ih => exact mirrors_inFrame hp ih
  | inContent _ _ ih => exact mirrors_inContent ih
  | buildRenderMethod _ ih => exact mirrors_buildRenderMethod hp ih
  | buildPart _ hname _ ih => exact mirrors_buildPart (hname noProbe) (hname p) ih
  | visit _ ih => exact mirrors_visit hp ih

/-- A probe that lets drafts under way pass makes no difference to a view. -/
theorem buildView_of_passes {p : Probe} (hp : p.Passes) (v : View) : buildView s v = @buildView noProbe s v := by
  have hrun (package : Option String) (name : String) := run_bind_congr (g := promote) (f := promote)
    (((made_view s v).mirrors hp).run _ (.view package name) False.elim) fun _ _ _ => rfl
  unfold buildView
  dsimp only
  rw [hrun]

/-- A probe that can end the build with any error does not let all drafts under way pass. -/
theorem not_passes {f : Error → Probe} {v : View} (h : ∀ err, @buildView (f err) s v = .error err) :
    ¬ ∀ err, (f err).Passes := by
  intro hpass
  have hfirst := h .json
  have hsecond := h .unnamedView
  rw [buildView_of_passes (hpass _)] at hfirst hsecond
  rw [hfirst] at hsecond
  cases hsecond

open Classical in
noncomputable def stopAt (d : Draft) (err : Error) (d' : Draft) : Option Error := if d' = d then some err else none

/-- The build of the view comes to a node in the draft: it can be stopped there. -/
def Visits (s : Settings) (v : View) (d : Draft) : Prop :=
  ∀ err, @buildView { node := stopAt d err } s v = .error err

/-- The build of the view opens a frame in the draft: it can be stopped there. -/
def OpensFrame (s : Settings) (v : View) (d : Draft) : Prop :=
  ∀ err, @buildView { frame := stopAt d err } s v = .error err

theorem stopAt_of_not {P : Draft → Prop} {err : Error} (hd : ¬ P d) (hd' : P d') : stopAt d err d' = none :=
  if_neg fun heq : d' = d => hd (heq ▸ hd')

theorem Visits.reached {v : View} (h : Visits s v d) : Reached d :=
  Classical.byContradiction fun hd => not_passes (f := fun err => { node := stopAt d err }) h fun _ =>
    ⟨fun _ hd' => stopAt_of_not hd hd', fun _ _ _ => rfl⟩

theorem OpensFrame.reached {v : View} (h : OpensFrame s v d) : Reached d ∧ d.buffer = "" :=
  Classical.byContradiction fun hd => not_passes (f := fun err => { frame := stopAt d err }) h fun _ =>
    ⟨fun _ _ => rfl, fun _ hd' hbuffer =>
      stopAt_of_not (P := fun d => Reached d ∧ d.buffer = "") hd ⟨hd', hbuffer⟩⟩

/-- The draft in which the build of a view opens its first frame. -/
def firstFrame (s : Settings) (v : View) : Draft :=
  Draft.withMethod { target := viewClass (splitName (s.serverName v.name)).1 (splitName (s.serverName v.name)).2 }

theorem run_bind_error {err : Error} {x : Build α} {f : α → Build β} (h : x.run d = .error err) :
    (x >>= f).run d = .error err := by
  rw [StateT.run_bind, h]
  rfl

theorem run_stopBy {stop : Draft → Option Error} {err : Error} (h : stop d = some err) :
    (stopBy stop).run d = .error err := by
  simp [stopBy, h]
  rfl

theorem buildView_of_inFrame [Probe] {v : View} {err : Error} (hname : s.serverName v.name ≠ "")
    (h : (inFrame true (runAll (buildEach s v.children))).run (firstFrame s v) = .error err) :
    buildView s v = .error err := by
  have hmethod (d : Draft) (x : Build Unit) : (buildRenderMethod x).run d =
      (inFrame true x).run d.withMethod.flush >>= fun r =>
        .ok ((d.names.fresh "render_").1, r.2.setBody (d.names.fresh "render_").1 r.1) := rfl
  unfold buildView
  dsimp only
  rw [if_neg hname, StateT.run_bind, hmethod]
  rw [show Draft.flush _ = firstFrame s v from rfl, h]
  rfl

theorem stopAt_self (d : Draft) (err : Error) : stopAt d err d = some err := if_pos rfl

theorem opensFrame_first {v : View} (hname : s.serverName v.name ≠ "") : OpensFrame s v (firstFrame s v) :=
  fun err =>
    let _ : Probe := { frame := stopAt (firstFrame s v) err }
    buildView_of_inFrame hname (run_bind_error (run_stopBy (stopAt_self _ err)))

/-- The first node of a view is built in the frame of that method. -/
theorem visits_first {v : View} (hname : s.serverName v.name ≠ "") (hchildren : v.children ≠ []) :
    Visits s v ((firstFrame s v).opened true) := by
  obtain ⟨n, rest, hv⟩ := List.exists_cons_of_ne_nil hchildren
  intro err
  let p : Probe := { node := stopAt ((firstFrame s v).opened true) err }
  have hnode : (visit (buildNode s n)).run ((firstFrame s v).opened true) = .error err :=
    run_bind_error (run_stopBy (stopAt_self _ err))
  have hall : (runAll (buildEach s (n :: rest))).run ((firstFrame s v).opened true) = .error err :=
    run_bind_error hnode
  have hframe (x : Build Unit) : (inFrame true x).run (firstFrame s v) =
      x.run ((firstFrame s v).opened true) >>= fun r => .ok r.2.flush.close := rfl
  refine buildView_of_inFrame hname ?_
  rw [hv, hframe, hall]
  rfl

/-- The builder only appends. A probe that lets drafts under way pass makes no difference, every draft in which the
build comes to a node or opens a frame is under way, a node that is built from a draft under way only appends to it,
and no markup waits where a frame is opened. -/
theorem only_appends (s : Settings) :
    (∀ p : Probe, p.Passes → ∀ v, @buildView p s v = @buildView noProbe s v) ∧
    (∀ v d, Visits s v d → Reached d) ∧
    (∀ d n d', Reached d → Runs (buildNode s n) d () d' → OnlyAppends d d' ∧ Reached d') ∧
    ∀ v d, OpensFrame s v d → Reached d ∧ d.buffer = "" := by
  refine ⟨fun p hp => buildView_of_passes hp, fun v d => Visits.reached, fun d n d' hd hr => ?_,
    fun v d => OpensFrame.reached⟩
  have hmade := made_buildNode (w := ⟨s, n.blocks, n.required⟩) n (List.Subset.refl _) (List.Subset.refl _)
  obtain ⟨happ, hd', -⟩ := (hmade.mirrors noProbe_passes).appends d () d' hd False.elim hr
  exact ⟨happ, hd'⟩

/-- Ends the build where a frame is opened over markup. -/
abbrev overMarkup : Probe := { frame := fun d => if d.buffer = "" then none else some .unnamedView }

theorem only_appends_part :
    let part : Node := .part { name := "footer", children := [.text .docType "html" none] }
    let v : View := { name := "view", children := [part] }
    let start := firstFrame {} v
    @buildView overMarkup {} v = @buildView noProbe {} v ∧
      Visits {} v (start.opened true) ∧
      (∃ d', Runs (buildNode {} part) (start.opened true) () d' ∧
        d'.target.members.length = start.target.members.length + 2 ∧ OnlyAppends (start.opened true) d') ∧
      OpensFrame {} v start ∧ start.buffer = "" := by
  intro part v start
  obtain ⟨hsame, hvisits, hnodes, hopens⟩ := only_appends {}
  have hname : Settings.serverName {} v.name ≠ "" := by decide
  have hvisit : Visits {} v (start.opened true) := visits_first hname (List.cons_ne_nil _ _)
  have hopen : OpensFrame {} v start := opensFrame_first hname
  have hmembers : ((buildNode {} part).run (start.opened true)).toOption.map (·.2.target.members.length) =
      some (start.target.members.length + 2) := by
    decide
  have hpasses : overMarkup.Passes := ⟨fun _ _ => rfl, fun _ _ hbuffer => if_pos hbuffer⟩
  refine ⟨hsame overMarkup hpasses v, hvisit, ?_, hopen, (hopens v _ hopen).2⟩
  cases hrun : (buildNode {} part).run (start.opened true) with
  | error err =>
      rw [hrun] at hmembers
      cases hmembers
  | ok r =>
      rw [hrun] at hmembers
      exact ⟨r.2, hrun, Option.some.inj hmembers, (hnodes _ _ _ (hvisits v _ hvisit) hrun).1⟩

end TwinView.Server
